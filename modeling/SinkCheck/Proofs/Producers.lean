import Mathlib
import SinkCheck.Proofs.Completion
import SinkCheck.Proofs.Pass

/-!
# Producers of safe values

The recogniser of safe values looks at the last instructions in front of a location. On every path these are the
last ones executed, but it does not follow the stack. So the last one need not have pushed the top word, and the
array that is read need not be the static table: the exact conditions for both are given here.
-/

namespace SinkCheck

/-! ## Steps along a path -/

inductive PathStep where
  | exec (index : Nat)
  | cross (e : Edge)
deriving DecidableEq

namespace Graph

def trail (g : Graph) : List Edge → List PathStep
  | [] => []
  | e :: es => .cross e :: ((g.indices e.source).reverse.map .exec ++ trail g es)

def steps (g : Graph) (es : List Edge) (l : Location) : List PathStep :=
  (g.before l).reverse.map .exec ++ g.trail es

end Graph

section
variable (c : Code) (g : Graph) (pool : Pool)

/-- Where a word after the step comes from. Nothing is known of the locals in a handler. -/
def PathStep.origin : PathStep → Place → Option Origin
  | .exec n, w => ((c.instruction? n).bind fun i => (i.effect pool).toOption).map (·.origin w)
  | .cross e, w =>
    if e.kind = .exception then if w = .stack 0 then some (.given .unknown) else none
    else some ((Effect.fresh 0 (g.returnWords c e)).origin w)

/-- The step that pushed the word at a place, and those before it. Loads, stores and shuffles only move words. -/
def producer : List PathStep → Place → Option (List PathStep)
  | [], _ => none
  | s :: ss, w =>
    match s.origin c g pool w with
    | some (.given _) => some (s :: ss)
    | some (.copy v) => producer ss v
    | none => none

/-- The last executed instruction that is not a `nop`, and the steps before it. -/
def executed : List PathStep → List PathStep :=
  List.dropWhile fun
    | .exec n => c.instruction? n == some .nop
    | .cross _ => true

structure Idle (ss ss' : List PathStep) : Prop where
  executed : executed c ss = executed c ss'
  producer : ∀ w, producer c g pool ss w = producer c g pool ss' w

end

section
variable {c : Code} {g : Graph} {pool : Pool} {ss ss' : List PathStep}

theorem Idle.refl (ss : List PathStep) : Idle c g pool ss ss :=
  ⟨rfl, fun _ => rfl⟩

theorem Idle.trans {ss'' : List PathStep} (h : Idle c g pool ss ss') (h' : Idle c g pool ss' ss'') :
    Idle c g pool ss ss'' :=
  ⟨h.executed.trans h'.executed, fun w => (h.producer w).trans (h'.producer w)⟩

theorem origin_fresh_zero (w : Place) : (Effect.fresh 0 0).origin w = .copy w := by
  cases w <;> rfl

theorem idle_nop {n : Nat} (hn : c.instruction? n = some .nop) (ss : List PathStep) :
    Idle c g pool (.exec n :: ss) ss := by
  have horigin : ∀ w, (PathStep.exec n).origin c g pool w = some (.copy w) := by
    intro w
    rw [PathStep.origin, hn]
    cases w <;> rfl
  refine ⟨?_, fun w => ?_⟩
  · exact List.dropWhile_cons_of_pos (by simp [hn])
  · rw [producer, horigin]

theorem idle_fall {e : Edge} (hk : e.kind = .fallThrough) (ss : List PathStep) :
    Idle c g pool (.cross e :: ss) ss := by
  have horigin : ∀ w, (PathStep.cross e).origin c g pool w = some (.copy w) := by
    intro w
    have hwords : g.returnWords c e = 0 := by simp [Graph.returnWords, hk]
    rw [PathStep.origin, hwords, origin_fresh_zero, if_neg (by simp [hk])]
  refine ⟨List.dropWhile_cons_of_pos rfl, fun w => ?_⟩
  rw [producer, horigin]

theorem executed_cons {n : Nat} (hn : c.instruction? n ≠ some .nop) (ss : List PathStep) :
    executed c (.exec n :: ss) = .exec n :: ss :=
  List.dropWhile_cons_of_neg (by simpa using hn)

theorem length_producer {w : Place} (h : producer c g pool ss w = some ss') : ss'.length ≤ ss.length := by
  induction ss generalizing w with
  | nil => cases h
  | cons s ss ih =>
    rw [producer] at h
    split at h
    · cases h
      exact Nat.le_refl _
    · exact Nat.le_succ_of_le (ih h)
    · cases h

theorem producer_of_given {s : PathStep} {w : Place} {k : Constant} (ho : s.origin c g pool w = some (.given k)) :
    producer c g pool (s :: ss) w = some (s :: ss) := by
  rw [producer, ho]

theorem producer_of_copy {s : PathStep} {v w : Place} (ho : s.origin c g pool w = some (.copy v)) :
    producer c g pool (s :: ss) w = producer c g pool ss v := by
  rw [producer, ho]

/-- A step pushed the word at a place iff the word is no copy. -/
theorem producer_eq_self {s : PathStep} {w : Place} :
    producer c g pool (s :: ss) w = some (s :: ss) ↔ ∃ k, s.origin c g pool w = some (.given k) := by
  constructor
  · intro h
    cases ho : s.origin c g pool w with
    | none =>
      rw [producer, ho] at h
      cases h
    | some o =>
      cases o with
      | given k => exact ⟨k, rfl⟩
      | copy v =>
        rw [producer_of_copy ho] at h
        have := length_producer h
        simp at this
  · intro h
    obtain ⟨k, ho⟩ := h
    exact producer_of_given ho

/-! ## Walking back -/

theorem reverse_range' {start n : Nat} (h : start ≤ n) :
    (List.range' start (n + 1 - start)).reverse = n :: (List.range' start (n - start)).reverse := by
  rw [show n + 1 - start = n - start + 1 by omega, List.range'_concat, List.reverse_append]
  simp
  omega

theorem not_nop_of_lastBefore {start n i : Nat} (h : Graph.lastBefore (Graph.keeps c true) start n = some i) :
    c.instruction? i ≠ some .nop := by
  induction n with
  | zero => cases h
  | succ n ih =>
    rw [Graph.lastBefore] at h
    split at h
    · cases h
    · split at h
      · rename_i hkeep
        cases h
        simpa [Graph.keeps] using hkeep
      · exact ih h

theorem idle_lastBefore {start n i : Nat} (h : Graph.lastBefore (Graph.keeps c true) start n = some i)
    (ss : List PathStep) : Idle c g pool ((List.range' start (n - start)).reverse.map .exec ++ ss)
      (.exec i :: ((List.range' start (i - start)).reverse.map .exec ++ ss)) := by
  induction n with
  | zero => cases h
  | succ n ih =>
    rw [Graph.lastBefore] at h
    split at h
    · cases h
    · rename_i hn
      rw [reverse_range' (by omega), List.map_cons, List.cons_append]
      split at h
      · cases h
        exact .refl _
      · rename_i hnop
        exact (idle_nop (by simpa [Graph.keeps] using hnop) _).trans (ih h)

theorem idle_of_lastBefore_eq_none {start n : Nat} (h : Graph.lastBefore (Graph.keeps c true) start n = none)
    (ss : List PathStep) : Idle c g pool ((List.range' start (n - start)).reverse.map .exec ++ ss) ss := by
  induction n with
  | zero =>
    rw [Nat.zero_sub]
    exact .refl ss
  | succ n ih =>
    rw [Graph.lastBefore] at h
    split at h
    · rename_i hn
      rw [show n + 1 - start = 0 by omega]
      exact .refl ss
    · rename_i hn
      split at h
      · cases h
      · rename_i hnop
        rw [reverse_range' (by omega), List.map_cons, List.cons_append]
        exact (idle_nop (by simpa [Graph.keeps] using hnop) _).trans (ih h)

/-- The walk back comes to the instruction that every path has executed last. -/
theorem idle_walkBack (hl : g.Laid c) {l : Location} : ∀ {rounds id index : Nat} {b : Block} {es : List Edge},
    g.blocks[id]? = some b → g.Path es id → g.walkBack c true true rounds id index = some l →
      ∃ es', g.Path es' l.block ∧ c.instruction? l.index ≠ some .nop ∧
        Idle c g pool ((b.before index).reverse.map .exec ++ g.trail es) (.exec l.index :: g.steps es' l)
  | 0, _, _, _, _, _, _, h => by cases h
  | rounds + 1, id, index, b, es, hb, hes, h => by
    simp only [Graph.walkBack, hb] at h
    cases hlast : Graph.lastBefore (Graph.keeps c true) b.start index with
    | some i =>
      rw [hlast] at h
      cases h
      refine ⟨es, hes, not_nop_of_lastBefore hlast, ?_⟩
      rw [Graph.steps, Graph.before, hb]
      exact idle_lastBefore hlast _
    | none =>
      simp only [hlast, Bool.true_and] at h
      split at h
      · cases h
      · rename_i hjump
        split at h
        · cases h
        · rename_i p hp
          split at h
          · cases h
          · rename_i q hq
            obtain ⟨e, hfind, rfl⟩ := Option.map_eq_some_iff.mp hp
            have hcond := List.find?_some hfind
            simp only [Bool.and_eq_true, beq_iff_eq] at hcond
            have hid := hl.falls (List.mem_of_find?_eq_some hfind) hcond.2
            rw [hcond.1] at hid
            cases hes with
            | start => cases hid
            | @step es e' hes hmem =>
              -- no jump leads here, so the path came in by falling through as well
              have hkind : e'.kind = .fallThrough := by
                simp only [Graph.hasJumpPredecessor, Bool.not_eq_true, List.any_eq_false] at hjump
                simpa using hjump e' hmem
              have hsource : e'.source = e.source := by
                have := hl.falls hmem hkind
                omega
              rw [← hsource] at hq h
              obtain ⟨es', hes', hi, hidle⟩ := idle_walkBack hl hq hes h
              refine ⟨es', hes', hi, ?_⟩
              have hindices : g.indices e'.source = q.before q.stop := by
                rw [Graph.indices, hq]
                rfl
              rw [Graph.trail, hindices]
              exact ((idle_of_lastBefore_eq_none hlast _).trans (idle_fall hkind _)).trans hidle

variable (pool) in
theorem idle_previous (hl : g.Laid c) {l p : Location} (hp : g.unambiguousPrevious c l true = some p)
    {es : List Edge} (hes : g.Path es l.block) : ∃ es', g.Path es' p.block ∧ c.instruction? p.index ≠ some .nop ∧
      Idle c g pool (g.steps es l) (.exec p.index :: g.steps es' p) := by
  cases hb : g.blocks[l.block]? with
  | none =>
    rw [Graph.unambiguousPrevious, Graph.rounds, Graph.walkBack, hb] at hp
    cases hp
  | some b =>
    rw [Graph.steps, Graph.before, hb]
    exact idle_walkBack hl hb hes hp

end

/-! ## Recognised producers -/

inductive Recognised (pool : Pool) : Instruction → Prop
  | literal (index : UInt16) : Recognised pool (.ldc index)
  | static (index : UInt16) : Recognised pool (.getStatic index)
  | conversion {kind : InvokeKind} {index : UInt16} {m : Member} : pool.method index = .ok m →
      isStringification m.name = true → Recognised pool (.invoke kind index)
  | element : Recognised pool (.arrayLoad .reference)

namespace Instruction

def pushes (pool : Pool) (j : Instruction) : Nat :=
  ((j.effect pool).toOption.map fun e => e.net.2).getD 0

/-- The word on top before the instruction lies just below the top after it. -/
def Covers (pool : Pool) (j : Instruction) : Prop :=
  ∃ e, j.effect pool = .ok e ∧ e.origin (.stack 1) = .copy (.stack 0)

end Instruction

section
variable {c : Code} {g : Graph} {pool : Pool} {n : Nat} {j : Instruction} {e : Effect} {ss : List PathStep}

theorem origin_exec (hj : c.instruction? n = some j) (he : j.effect pool = .ok e) (w : Place) :
    (PathStep.exec n).origin c g pool w = some (e.origin w) := by
  rw [PathStep.origin, hj, Option.bind_some, he]
  rfl

/-- A recognised instruction computes all it pushes. -/
theorem Recognised.pushed (hr : Recognised pool j) (he : j.effect pool = .ok e) :
    ∃ k, e.pushed = List.replicate e.net.2 (.given k) := by
  cases hr with
  | literal index =>
    obtain ⟨literal, -, rfl⟩ := Except.map_eq_ok.mp he
    exact ⟨_, rfl⟩
  | static index =>
    obtain ⟨⟨m, k⟩, -, rfl⟩ := Except.map_eq_ok.mp he
    exact ⟨_, rfl⟩
  | conversion hm hs =>
    obtain ⟨call, -, rfl⟩ := Except.map_eq_ok.mp he
    exact ⟨_, rfl⟩
  | element =>
    cases he
    exact ⟨_, rfl⟩

theorem Recognised.given_top (hr : Recognised pool j) (he : j.effect pool = .ok e) :
    (∃ k, e.origin (.stack 0) = .given k) ↔ 0 < j.pushes pool := by
  obtain ⟨k, hp⟩ := hr.pushed he
  have hpushes : j.pushes pool = e.net.2 := by
    rw [Instruction.pushes, he]
    rfl
  rw [hpushes, Effect.origin, hp, List.getElem?_replicate]
  by_cases hpos : 0 < e.net.2
  · simp [hpos]
  · simp [hpos]

theorem sizedField_eq_ok {index : UInt16} {m : Member} {words : Nat} (h : pool.sizedField index = .ok (m, words)) :
    ∃ t, pool.field index = .ok m ∧ FieldType.parse m.descriptor = .ok t ∧ words = t.words := by
  unfold Pool.sizedField at h
  split at h
  · cases h
  · split at h
    · cases h
    · rename_i hm _ t ht
      cases h
      exact ⟨t, hm, ht, rfl⟩

/-- Only a call may push nothing. -/
theorem Recognised.call_of_pushes_eq_zero (hr : Recognised pool j) (he : j.effect pool = .ok e)
    (h : j.pushes pool = 0) : ∃ kind index, j = .invoke kind index := by
  have hnet : e.net.2 = 0 := by
    rw [Instruction.pushes, he] at h
    exact h
  cases hr with
  | literal index =>
    obtain ⟨literal, -, rfl⟩ := Except.map_eq_ok.mp he
    cases hnet
  | static index =>
    obtain ⟨⟨m, words⟩, hfield, rfl⟩ := Except.map_eq_ok.mp he
    obtain ⟨t, -, -, rfl⟩ := sizedField_eq_ok hfield
    exact absurd hnet (Nat.ne_of_gt t.words_pos)
  | conversion hm hs => exact ⟨_, _, rfl⟩
  | element =>
    cases he
    cases hnet

theorem effect_stringTable {index : UInt16} {m : Member} (hm : pool.field index = .ok m)
    (hd : m.descriptor = stringTable) (he : (Instruction.getStatic index).effect pool = .ok e) :
    e = .readStatic m 1 := by
  obtain ⟨⟨m', words⟩, hfield, rfl⟩ := Except.map_eq_ok.mp he
  obtain ⟨t, hm', ht, rfl⟩ := sizedField_eq_ok hfield
  rw [hm] at hm'
  cases hm'
  have hparse : FieldType.parse stringTable = .ok (.array (.object "java/lang/String")) := by cbv
  rw [hd, hparse] at ht
  cases ht
  rfl

theorem given_readStatic {m : Member} {v : Place} :
    (∃ k, (Effect.readStatic m 1).origin v = .given k) ↔ v = .stack 0 := by
  constructor
  · intro h
    obtain ⟨k, hk⟩ := h
    cases v with
    | slot i => cases hk
    | stack d =>
      cases d with
      | zero => rfl
      | succ d => cases hk
  · intro h
    subst h
    exact ⟨_, rfl⟩

theorem length_executed (c : Code) (ss : List PathStep) : (executed c ss).length ≤ ss.length :=
  (List.dropWhile_sublist _).length_le

/-- The array comes from the instruction before the index iff that instruction left it just below the index. -/
theorem producer_below {i : Instruction} {n₁ n₂ : Nat} {index : UInt16} {m : Member}
    {before before₁ before₂ : List PathStep} (hi : c.instruction? n₁ = some i) (he : i.effect pool = .ok e)
    (ha : c.instruction? n₂ = some (.getStatic index))
    (hstatic : (Instruction.getStatic index).effect pool = .ok (.readStatic m 1))
    (hidle : Idle c g pool before (.exec n₁ :: before₁)) (hidle₁ : Idle c g pool before₁ (.exec n₂ :: before₂))
    (hlen : before₂.length < before₁.length) :
    producer c g pool before (.stack 1) = some (.exec n₂ :: before₂) ↔ i.Covers pool := by
  have horigin := origin_exec (g := g) hi he (.stack 1)
  have hcovers : i.Covers pool ↔ e.origin (.stack 1) = .copy (.stack 0) := by
    constructor
    · intro h
      obtain ⟨e', he', ho⟩ := h
      rw [he] at he'
      cases he'
      exact ho
    · exact fun h => ⟨e, he, h⟩
  rw [hidle.producer, hcovers]
  cases ho : e.origin (.stack 1) with
  | given k =>
    rw [ho] at horigin
    rw [producer_of_given horigin]
    constructor
    · intro h
      cases h
      exact absurd hlen (Nat.lt_irrefl _)
    · intro h
      cases h
  | copy v =>
    rw [ho] at horigin
    rw [producer_of_copy horigin, hidle₁.producer, producer_eq_self, origin_exec ha hstatic]
    simp only [Option.some.injEq, given_readStatic, Origin.copy.injEq]

end

/-! ## Safe tops -/

theorem Flow.Enters.instruction {c : Code} {g : Graph} {flow : Flow} (hl : g.Laid c) {l : Location}
    (hn : flow.Enters g l) : ∃ j, c.instruction? l.index = some j := by
  obtain ⟨b, -, hb, hi, -⟩ := hn
  have hlt := hl.index_lt (hl.mem_orderedLocations.mpr ⟨b, hb, hi⟩)
  exact ⟨_, by rw [Code.instruction?, Array.getElem?_eq_getElem hlt]; rfl⟩

section
variable {c : Code} {g : Graph} {pool : Pool}

theorem isSafeTop_eq_true {l : Location} (h : isSafeTop c g pool l = .ok true) :
    ∃ p, g.unambiguousPrevious c l true = some p ∧ isSafeValue c g pool p = .ok true := by
  unfold isSafeTop at h
  split at h
  · rename_i p hp
    exact ⟨p, hp, h⟩
  · cases h

theorem readsStringTable_eq_true {l : Location} (h : readsStringTable c g pool l = .ok true) :
    ∃ i a index m, g.unambiguousPrevious c l true = some i ∧ g.unambiguousPrevious c i true = some a ∧
      c.instruction? a.index = some (.getStatic index) ∧ pool.field index = .ok m ∧ m.descriptor = stringTable := by
  unfold readsStringTable at h
  simp only at h
  split at h
  · rename_i index ha
    obtain ⟨a, ha, hinst⟩ := Option.bind_eq_some_iff.mp ha
    obtain ⟨i, hi, ha⟩ := Option.bind_eq_some_iff.mp ha
    obtain ⟨m, hm, hd⟩ := Except.map_eq_ok.mp h
    exact ⟨i, a, index, m, hi, ha, hinst, hm, by simpa using hd⟩
  · cases h

theorem isSafeValue_eq_true {l : Location} (h : isSafeValue c g pool l = .ok true) :
    ∃ j, c.instruction? l.index = some j ∧ Recognised pool j ∧
      (j = .arrayLoad .reference → readsStringTable c g pool l = .ok true) := by
  unfold isSafeValue at h
  cases hj : c.instruction? l.index with
  | none =>
    rw [hj] at h
    cases h
  | some j =>
    rw [hj] at h
    refine ⟨j, rfl, ?_⟩
    cases j with
    | ldc index => exact ⟨.literal index, fun h => by cases h⟩
    | getStatic index => exact ⟨.static index, fun h => by cases h⟩
    | invoke kind index =>
      obtain ⟨m, hm, hname⟩ := Except.map_eq_ok.mp h
      exact ⟨.conversion hm hname, fun h => by cases h⟩
    | arrayLoad kind =>
      cases kind with
      | reference => exact ⟨.element, fun _ => h⟩
      | _ => cases h
    | _ => cases h

end

/-- **Who made a safe top.** If the top word is called safe, the same recognised instruction was the last one executed
on every path. It pushed the top word unless it is a call without a result. If it loads from an array, the last
instruction but two was a read of a static string table on every path, and the array is that table iff the
instruction in between left it just below its own word. -/
theorem safe_top_producer {c : Code} {g : Graph} {pool : Pool} {flow : Flow} (hg : Graph.build c = .ok g)
    (hf : Flow.analyze c g pool = .ok flow) {l : Location} (hreach : ∃ es, g.Path es l.block)
    (hloc : l ∈ g.orderedLocations) (htop : isSafeTop c g pool l = .ok true) :
    ∃ n j, c.instruction? n = some j ∧ Recognised pool j ∧
      (j.pushes pool = 0 → ∃ kind index, j = .invoke kind index) ∧
      ∀ es, g.Path es l.block → ∃ before, executed c (g.steps es l) = .exec n :: before ∧
        (producer c g pool (g.steps es l) (.stack 0) = some (.exec n :: before) ↔ 0 < j.pushes pool) ∧
        (j = .arrayLoad .reference → ∃ n₁ i before₁ n₂ index field before₂,
          executed c before = .exec n₁ :: before₁ ∧ c.instruction? n₁ = some i ∧
          executed c before₁ = .exec n₂ :: before₂ ∧ c.instruction? n₂ = some (.getStatic index) ∧
          pool.field index = .ok field ∧ field.descriptor = stringTable ∧
          (producer c g pool before (.stack 1) = some (.exec n₂ :: before₂) ↔ i.Covers pool)) := by
  have hl := Graph.laid_of_build hg
  obtain ⟨p, hp, hsafe⟩ := isSafeTop_eq_true htop
  obtain ⟨j, hj, hr, htable⟩ := isSafeValue_eq_true hsafe
  have hn : flow.Enters g l := by
    obtain ⟨es, hes⟩ := hreach
    obtain ⟨b, hb, hi⟩ := hl.mem_orderedLocations.mp hloc
    obtain ⟨f, -, hentry, -, -⟩ := Flow.entry_covers hl hf hes
    exact ⟨b, f, hb, hi, hentry⟩
  have hnp := hn.previous hl hf hp
  obtain ⟨e, he⟩ := hnp.effect hl hf hj
  refine ⟨p.index, j, hj, hr, hr.call_of_pushes_eq_zero he, ?_⟩
  intro es hes
  obtain ⟨es₁, hes₁, hnop, hidle⟩ := idle_previous pool hl hp hes
  refine ⟨g.steps es₁ p, hidle.executed.trans (executed_cons hnop _), ?_, ?_⟩
  · rw [hidle.producer, producer_eq_self, origin_exec hj he, ← hr.given_top he]
    simp
  · intro harray
    obtain ⟨i, a, index, m, hi, ha, hstatic, hm, hd⟩ := readsStringTable_eq_true (htable harray)
    have hni := hnp.previous hl hf hi
    have hna := hni.previous hl hf ha
    obtain ⟨ji, hji⟩ := hni.instruction hl
    obtain ⟨ei, hei⟩ := hni.effect hl hf hji
    obtain ⟨ea, hea⟩ := hna.effect hl hf hstatic
    obtain ⟨es₂, hes₂, hnop₁, hidle₁⟩ := idle_previous pool hl hi hes₁
    obtain ⟨es₃, -, hnop₂, hidle₂⟩ := idle_previous pool hl ha hes₂
    have hexecuted := hidle₂.executed.trans (executed_cons hnop₂ _)
    have hlen := length_executed c (g.steps es₂ i)
    rw [hexecuted] at hlen
    cases effect_stringTable hm hd hea
    exact ⟨i.index, ji, g.steps es₂ i, a.index, index, m, g.steps es₃ a, hidle₁.executed.trans (executed_cons hnop₁ _),
      hji, hexecuted, hstatic, hm, hd, producer_below hji hei hstatic hea hidle₁ hidle₂ hlen⟩

/-! ## Elements of tables -/

namespace Sample

def queryTable : Pool :=
  ⟨#[none, some (.field ⟨"com/acme/Queries", "ALL", "[Ljava/lang/String;"⟩)]⟩

def element : Code where
  body := #[⟨0, .getStatic 1⟩, ⟨3, .nop⟩, ⟨4, .load .int 0⟩,
    ⟨5, .arrayLoad .reference⟩,
    ⟨6, .leave (some .reference)⟩,
    ⟨7, .throw⟩]
  handlers := [⟨5, 6, 7, none⟩]

def elementGraph : Graph where
  blocks := #[⟨0, 0, 3, false⟩, ⟨1, 3, 4, false⟩, ⟨2, 4, 5, false⟩, ⟨3, 5, 6, true⟩]
  edges := [⟨0, 1, .fallThrough⟩, ⟨1, 2, .fallThrough⟩, ⟨1, 3, .exception⟩]

def foreignElement : Code where
  body := #[⟨0, .load .reference 0⟩, ⟨1, .getStatic 1⟩, ⟨4, .arrayLength⟩, ⟨5, .arrayLoad .reference⟩,
    ⟨6, .leave (some .reference)⟩]

end Sample

/-- The element is pushed by the load from the array, in a block of its own, and the array is the static table. -/
theorem table_element_safe : ∃ flow before, Graph.build Sample.element = .ok Sample.elementGraph ∧
    Flow.analyze Sample.element Sample.elementGraph Sample.queryTable = .ok flow ∧
    ⟨4, 2⟩ ∈ Sample.elementGraph.orderedLocations ∧
    isSafeTop Sample.element Sample.elementGraph Sample.queryTable ⟨4, 2⟩ = .ok true ∧
    Sample.elementGraph.Path [⟨1, 2, .fallThrough⟩, ⟨0, 1, .fallThrough⟩] 2 ∧
    producer Sample.element Sample.elementGraph Sample.queryTable
      (Sample.elementGraph.steps [⟨1, 2, .fallThrough⟩, ⟨0, 1, .fallThrough⟩] ⟨4, 2⟩) (.stack 0) =
        some (.exec 3 :: before) ∧
    producer Sample.element Sample.elementGraph Sample.queryTable before (.stack 1) = some [.exec 0] := by
  have hg : Graph.build Sample.element = .ok Sample.elementGraph := by cbv
  have hpath : Sample.elementGraph.Path [⟨1, 2, .fallThrough⟩, ⟨0, 1, .fallThrough⟩] 2 :=
    .step (.step .start (by decide)) (by decide)
  have hsafe : isSafeTop Sample.element Sample.elementGraph Sample.queryTable ⟨4, 2⟩ = .ok true := rfl
  have hloc : ⟨4, 2⟩ ∈ Sample.elementGraph.orderedLocations := by decide
  obtain ⟨flow, hf, -⟩ := Flow.exists_analyze Sample.element Sample.elementGraph Sample.queryTable 4 (fun _ => true)
    (by decide +kernel)
  obtain ⟨n, j, hj, -, -, hpaths⟩ := safe_top_producer hg hf ⟨_, hpath⟩ hloc hsafe
  obtain ⟨before, hexecuted, htop, harray⟩ := hpaths _ hpath
  -- the instruction that the theorem speaks of is the load from the array
  cases hexecuted
  cases hj
  obtain ⟨n₁, i, before₁, n₂, index, field, before₂, hexec₁, hi, hexec₂, -, -, -, hbelow⟩ := harray rfl
  cases hexec₁
  cases hi
  cases hexec₂
  refine ⟨flow, _, hg, hf, hloc, hsafe, hpath, htop.mpr (by decide), hbelow.mpr ?_⟩
  exact ⟨_, rfl, rfl⟩

/-- The element of an argument is called safe, because the index was computed from a static table. -/
theorem foreign_element_safe : ∃ g flow before, Graph.build Sample.foreignElement = .ok g ∧
    Flow.analyze Sample.foreignElement g Sample.queryTable = .ok flow ∧ g.Path [] 0 ∧
    ⟨4, 0⟩ ∈ g.orderedLocations ∧ isSafeTop Sample.foreignElement g Sample.queryTable ⟨4, 0⟩ = .ok true ∧
    executed Sample.foreignElement (g.steps [] ⟨4, 0⟩) = .exec 3 :: before ∧
    Sample.foreignElement.instruction? 3 = some (.arrayLoad .reference) ∧
    producer Sample.foreignElement g Sample.queryTable before (.stack 1) = none := by
  have hg : Graph.build Sample.foreignElement = .ok (Sample.straight 5) := by cbv
  obtain ⟨flow, hf, -⟩ := Flow.exists_analyze Sample.foreignElement (Sample.straight 5) Sample.queryTable 1
    (fun _ => true) (by decide +kernel)
  exact ⟨_, flow, [.exec 2, .exec 1, .exec 0], hg, hf, .start, by decide, rfl, rfl, rfl, by cbv⟩

end SinkCheck
