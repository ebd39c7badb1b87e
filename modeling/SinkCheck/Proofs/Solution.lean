import SinkCheck.Flow
import SinkCheck.Proofs.Blocks
import SinkCheck.Proofs.Transfer

/-!
# What a drained worklist leaves behind

A block that is not queued is settled: the frames before its instructions are those of a run from its
entry, and the entries of its successors cover what it sends. A visit keeps this of every block, so it
holds of all blocks when the worklist is empty (`Consistent`).
-/

namespace SinkCheck

/-! ## Entries -/

namespace Entries

section
variable {es es' : Entries} {t id : Nat} {f : Frame Constant} {changed : Bool}

def entry (es : Entries) (id : Nat) : Option (Frame Constant) :=
  es[id]?.join

theorem entry_set_ne (h : t ≠ id) (e : Option (Frame Constant)) : entry (es.set t e) id = es.entry id := by
  rw [entry, entry, List.getElem?_set_ne h]

theorem entry_set_self (h : t < es.length) (e : Option (Frame Constant)) : entry (es.set t e) t = e := by
  rw [entry, List.getElem?_set_self h]; rfl

/-- A frame that arrives at a block becomes its entry or is merged into it. -/
theorem propagate_eq_ok (ht : t < es.length) (h : es.propagate t f = .ok (es', changed)) :
    ∃ new, es' = es.set t (some new) ∧
      ((es.entry t = none ∧ new = f ∧ changed = true) ∨
        ∃ old, es.entry t = some old ∧ old.merge Constant.join f = .ok (new, changed)) := by
  unfold propagate at h
  split at h
  · rename_i old hold
    split at h
    · rename_i new ch hm
      cases h
      exact ⟨new, rfl, .inr ⟨old, by rw [entry, hold]; rfl, hm⟩⟩
    · cases h
  · rename_i hnone
    cases h
    exact ⟨f, rfl, .inl ⟨by rw [entry, hnone]; rfl, rfl, rfl⟩⟩
  · rename_i hnone
    rw [List.getElem?_eq_getElem ht] at hnone
    cases hnone

theorem length_propagate (ht : t < es.length) (h : es.propagate t f = .ok (es', changed)) :
    es'.length = es.length := by
  obtain ⟨new, rfl, -⟩ := propagate_eq_ok ht h
  exact List.length_set

theorem covers_propagate (ht : t < es.length) (h : es.propagate t f = .ok (es', changed)) :
    (∃ new, es'.entry t = some new ∧ new.Covers f) ∧
      ∀ id old, es.entry id = some old → ∃ new, es'.entry id = some new ∧ new.Covers old := by
  obtain ⟨new, rfl, hnew⟩ := propagate_eq_ok ht h
  have hself := entry_set_self ht (some new)
  refine ⟨⟨new, hself, ?_⟩, fun id old hold => ?_⟩
  · rcases hnew with ⟨-, rfl, -⟩ | ⟨old, -, hm⟩
    · exact .of_word rfl
    · exact (Frame.covers_of_merge hm).2
  · by_cases hid : t = id
    · subst hid
      rcases hnew with ⟨hnone, -, -⟩ | ⟨old', hold', hm⟩
      · rw [hnone] at hold; cases hold
      · rw [hold'] at hold
        cases hold
        exact ⟨new, hself, (Frame.covers_of_merge hm).1⟩
    · exact ⟨old, by rwa [entry_set_ne hid], .of_word rfl⟩

theorem word_propagate (ht : t < es.length) (h : es.propagate t f = .ok (es', changed)) (id : Nat) :
    (changed = true ∧ id = t) ∨ (es'.entry id).map Frame.word = (es.entry id).map Frame.word := by
  obtain ⟨new, rfl, hnew⟩ := propagate_eq_ok ht h
  by_cases hid : t = id
  · subst hid
    rcases hnew with ⟨-, -, hc⟩ | ⟨old, hold, hm⟩
    · exact .inl ⟨hc, rfl⟩
    · cases changed with
      | true => exact .inl ⟨rfl, rfl⟩
      | false =>
        rw [entry_set_self ht, hold, Option.map_some, Option.map_some, Frame.word_of_unchanged hm]
        exact .inr rfl
  · rw [entry_set_ne hid]
    exact .inr rfl

theorem propagate_induct {Q : Nat → Frame Constant → Prop} (ht : t < es.length)
    (h : es.propagate t f = .ok (es', changed)) (hf : Q t f) (hes : ∀ id f, es.entry id = some f → Q id f)
    (hmerge : ∀ {id f g h c}, Q id f → Q id g → f.merge Constant.join g = .ok (h, c) → Q id h) :
    ∀ id f, es'.entry id = some f → Q id f := by
  obtain ⟨new, rfl, hnew⟩ := propagate_eq_ok ht h
  intro id f' hf'
  by_cases hid : t = id
  · subst hid
    rw [entry_set_self ht] at hf'
    cases hf'
    rcases hnew with ⟨-, rfl, -⟩ | ⟨old, hold, hm⟩
    · exact hf
    · exact hmerge (hes t old hold) hf hm
  · rw [entry_set_ne hid] at hf'
    exact hes id f' hf'

end

end Entries

/-! ## One round of edges -/

theorem mem_enqueue {id x : Nat} {queue : List Nat} : x ∈ enqueue id queue ↔ x = id ∨ x ∈ queue := by
  induction queue with
  | nil => simp [enqueue]
  | cons y queue ih =>
    simp only [enqueue]
    split
    · simp
    · split
      · rename_i h
        subst h
        simp
      · simp only [List.mem_cons, ih]
        grind

section
variable {f : Frame Constant} {last : Option Instruction}

/-- What one round of sending does to the entries: they weaken, a block whose entry lost a word is
queued, and every target covers what it was sent. -/
structure Spread (f : Frame Constant) (last : Option Instruction) (edges : List Edge)
    (es es' : Entries) (queue queue' : List Nat) : Prop where
  length : es'.length = es.length
  queue : ∀ x ∈ queue, x ∈ queue'
  word : ∀ id, id ∈ queue' ∨ (es'.entry id).map Frame.word = (es.entry id).map Frame.word
  covers : ∀ id old, es.entry id = some old → ∃ new, es'.entry id = some new ∧ new.Covers old
  sent : ∀ e ∈ edges, ∃ new, es'.entry e.target = some new ∧ new.Covers (outgoing f last e.kind)

theorem spread_eq_ok : ∀ {edges : List Edge} {es es' : Entries} {queue queue' : List Nat},
    (∀ e ∈ edges, e.target < es.length) → spread f last edges es queue = .ok (es', queue') →
      Spread f last edges es es' queue queue'
  | [], es, es', queue, queue', _, h => by
    cases h
    exact ⟨rfl, fun _ h => h, fun _ => .inr rfl, fun _ old h => ⟨old, h, .of_word rfl⟩, fun _ h => nomatch h⟩
  | e :: edges, es, es', queue, queue', ht, h => by
    unfold spread at h
    split at h
    · cases h
    · rename_i es₁ changed hp
      have hte := ht e (List.mem_cons_self ..)
      have hlen := Entries.length_propagate hte hp
      obtain ⟨⟨new, hnew, hsent⟩, hcov⟩ := Entries.covers_propagate hte hp
      have ih := spread_eq_ok (fun e' he' => hlen ▸ ht e' (List.mem_cons_of_mem _ he')) h
      refine ⟨ih.length.trans hlen, fun x hx => ih.queue x ?_, fun id => ?_, fun id old hold => ?_, fun e' he' => ?_⟩
      · split
        · exact mem_enqueue.mpr (.inr hx)
        · exact hx
      · rcases ih.word id with hq | hw
        · exact .inl hq
        · rcases Entries.word_propagate hte hp id with ⟨rfl, rfl⟩ | hw'
          · exact .inl (ih.queue _ (by simp [mem_enqueue]))
          · exact .inr (hw.trans hw')
      · obtain ⟨mid, hmid, hc⟩ := hcov id old hold
        obtain ⟨fin, hfin, hc'⟩ := ih.covers id mid hmid
        exact ⟨fin, hfin, hc'.trans hc⟩
      · rcases List.mem_cons.mp he' with rfl | he'
        · obtain ⟨fin, hfin, hc⟩ := ih.covers _ new hnew
          exact ⟨fin, hfin, hc.trans hsent⟩
        · exact ih.sent e' he'

theorem spread_induct {Q : Nat → Frame Constant → Prop}
    (hmerge : ∀ {id f g h c}, Q id f → Q id g → f.merge Constant.join g = .ok (h, c) → Q id h) :
    ∀ {edges : List Edge} {es es' : Entries} {queue queue' : List Nat},
      (∀ e ∈ edges, e.target < es.length) → spread f last edges es queue = .ok (es', queue') →
      (∀ e ∈ edges, Q e.target (outgoing f last e.kind)) → (∀ id f, es.entry id = some f → Q id f) →
      ∀ id f, es'.entry id = some f → Q id f
  | [], es, es', queue, queue', _, h, _, hes => by
    cases h
    exact hes
  | e :: edges, es, es', queue, queue', ht, h, hq, hes => by
    unfold spread at h
    split at h
    · cases h
    · rename_i es₁ changed hp
      have hte := ht e (List.mem_cons_self ..)
      have hlen := Entries.length_propagate hte hp
      refine spread_induct (Q := Q) hmerge (fun e' he' => hlen ▸ ht e' (List.mem_cons_of_mem _ he')) h
        (fun e' he' => hq e' (List.mem_cons_of_mem _ he')) ?_
      exact Entries.propagate_induct (Q := Q) hte hp (hq e (List.mem_cons_self ..)) hes hmerge

theorem outgoing_congr {f g : Frame Constant} (hw : f.word = g.word) (last : Option Instruction) :
    ∀ kind, (outgoing f last kind).word = (outgoing g last kind).word
  | .exception => rfl
  | .branch => (Frame.moved_pushWords f _).congr (Frame.moved_pushWords g _) hw
  | .fallThrough | .switch => hw

end

/-! ## One block -/

def Block.before (b : Block) (i : Nat) : List Nat :=
  List.range' b.start (i - b.start)

theorem Block.indices_split {b : Block} {i : Nat} (hi : i ∈ b.indices) :
    ∃ post, b.indices = b.before i ++ i :: post ∧ i ∉ post := by
  obtain ⟨h1, h2⟩ := Block.mem_indices.mp hi
  refine ⟨List.range' (i + 1) (b.stop - (i + 1)), ?_, ?_⟩
  · rw [← List.range'_succ, show i = b.start + (i - b.start) by omega, Block.before]
    rw [show b.start + (i - b.start) - b.start = i - b.start by omega, List.range'_append_1, Block.indices]
    congr 1
    omega
  · rw [List.mem_range'_1]; omega

theorem Block.before_succ {b : Block} {i : Nat} (hi : b.start ≤ i) : b.before (i + 1) = b.before i ++ [i] := by
  rw [Block.before, Block.before, show i + 1 - b.start = i - b.start + 1 by omega, List.range'_concat,
    show b.start + 1 * (i - b.start) = i by omega]

namespace Flow

section
variable {c : Code} {g : Graph} {pool : Pool}

theorem runBlock_eq_ok : ∀ {is : List Nat} {f f' : Frame Constant} {frames frames' : Frames},
    runBlock c pool is f frames = .ok (f', frames') →
      Frame.run c pool is f = .ok f' ∧ frames'.size = frames.size ∧
        (∀ i, i ∉ is → frames'[i]? = frames[i]?) ∧
        ∀ pre i post h, is = pre ++ i :: post → i ∉ post → i < frames.size → c.body[i]? = some h →
          ∃ p, Frame.run c pool pre f = .ok p ∧ frames'[i]? = some (some (p.seek h.position))
  | [], f, f', frames, frames', h => by
    cases h
    exact ⟨rfl, rfl, fun _ _ => rfl, fun pre i post h hn => by simp at hn⟩
  | j :: js, f, f', frames, frames', h => by
    cases hb : c.body[j]? with
    | none =>
      simp only [runBlock, hb] at h
      obtain ⟨hr, hs, ho, hp⟩ := runBlock_eq_ok h
      refine ⟨by simpa only [Frame.run, hb] using hr, hs,
        fun i hi => ho i (fun h => hi (List.mem_cons_of_mem _ h)), ?_⟩
      intro pre i post h' hsplit hpost hi hbi
      cases pre with
      | nil =>
        cases hsplit
        rw [hb] at hbi; cases hbi
      | cons x pre =>
        cases hsplit
        obtain ⟨p, hrun, hget⟩ := hp pre i post h' rfl hpost hi hbi
        exact ⟨p, by simpa only [Frame.run, hb] using hrun, hget⟩
    | some hd =>
      simp only [runBlock, hb] at h
      split at h
      · cases h
      · rename_i f₁ hx
        obtain ⟨hr, hs, ho, hp⟩ := runBlock_eq_ok h
        rw [Array.size_setIfInBounds] at hs
        refine ⟨(Frame.run_cons hb).mpr ⟨f₁, hx, hr⟩, hs, fun i hi => ?_, ?_⟩
        · rw [ho i (fun h => hi (List.mem_cons_of_mem _ h)), Array.getElem?_setIfInBounds_ne]
          exact fun h => hi (h ▸ List.mem_cons_self ..)
        · intro pre i post h' hsplit hpost hi hbi
          cases pre with
          | nil =>
            cases hsplit
            rw [hb] at hbi
            cases hbi
            exact ⟨f, rfl, by rw [ho j hpost, Array.getElem?_setIfInBounds_self_of_lt hi]⟩
          | cons x pre =>
            cases hsplit
            obtain ⟨p, hrun, hget⟩ := hp pre i post h' rfl hpost (by rwa [Array.size_setIfInBounds]) hbi
            exact ⟨p, (Frame.run_cons hb).mpr ⟨f₁, hx, hrun⟩, hget⟩

theorem visit_eq_ok {flow flow' : Flow} {id : Nat} {rest queue : List Nat}
    (h : visit c g pool flow id rest = .ok (flow', queue)) :
    (flow' = flow ∧ queue = rest ∧ ∀ b, g.blocks[id]? = some b → flow.entries.entry id = none) ∨
      ∃ b f f', g.blocks[id]? = some b ∧ flow.entries.entry id = some f ∧
        runBlock c pool b.indices f flow.frames = .ok (f', flow'.frames) ∧
        spread f' (b.last?.bind c.instruction?) (g.successors id) flow.entries rest = .ok (flow'.entries, queue) := by
  unfold visit at h
  split at h
  · rename_i b f hb hf
    split at h
    · cases h
    · rename_i f' frames hr
      split at h
      · cases h
      · rename_i es q hs
        cases h
        exact .inr ⟨b, f, f', hb, hf, hr, hs⟩
  · rename_i hno
    cases h
    refine .inl ⟨rfl, rfl, fun b hb => ?_⟩
    cases hf : flow.entries.entry id with
    | none => rfl
    | some f => exact absurd hf (hno b f hb)

theorem drain_nil (flow : Flow) : drain c g pool flow [] = .ok flow := by
  rw [drain]

theorem drain_cons (flow : Flow) (id : Nat) (rest : List Nat) : drain c g pool flow (id :: rest) =
    (visit c g pool flow id rest).bind fun p => drain c g pool p.1 p.2 := by
  rw [drain]
  split
  · rename_i hv
    rw [hv]
    rfl
  · rename_i hv
    rw [hv]
    rfl

theorem drain_induct {I : Flow → List Nat → Prop}
    (step : ∀ {flow id rest flow' queue}, I flow (id :: rest) →
      visit c g pool flow id rest = .ok (flow', queue) → I flow' queue) {flow flow' : Flow} {queue : List Nat}
    (h0 : I flow queue) (h : drain c g pool flow queue = .ok flow') : I flow' [] := by
  induction flow, queue using drain.induct c g pool with
  | case1 flow =>
    rw [drain_nil] at h
    cases h
    exact h0
  | case2 flow id rest e hv =>
    rw [drain_cons, hv] at h
    cases h
  | case3 flow id rest flow₁ queue₁ hv ih =>
    rw [drain_cons, hv] at h
    exact ih (step h0 hv) h

structure Settled (c : Code) (g : Graph) (pool : Pool) (flow : Flow) (id : Nat) (b : Block)
    (f : Frame Constant) : Prop where
  frames : ∀ i ∈ b.indices, ∃ k p, flow.frameAt i = some k ∧
    Frame.run c pool (b.before i) f = .ok p ∧ k.word = p.word
  sent : ∃ f', Frame.run c pool b.indices f = .ok f' ∧ ∀ e ∈ g.successors id,
    ∃ t, flow.entries.entry e.target = some t ∧ t.Covers (outgoing f' (b.last?.bind c.instruction?) e.kind)

theorem Settled.congr {flow : Flow} {id : Nat} {b : Block} {f f₁ : Frame Constant}
    (hs : Settled c g pool flow id b f) (hw : f.word = f₁.word) : Settled c g pool flow id b f₁ := by
  refine ⟨fun i hi => ?_, ?_⟩
  · obtain ⟨k, p, hk, hp, hkp⟩ := hs.frames i hi
    obtain ⟨p₁, hp₁, hpp⟩ := Frame.run_congr hw hp
    exact ⟨k, p₁, hk, hp₁, hkp.trans hpp⟩
  · obtain ⟨f', hf', hsent⟩ := hs.sent
    obtain ⟨f₁', hf₁', hww⟩ := Frame.run_congr hw hf'
    refine ⟨f₁', hf₁', fun e he => ?_⟩
    obtain ⟨t, ht, hc⟩ := hsent e he
    exact ⟨t, ht, hc.trans (.of_word (outgoing_congr hww _ _))⟩

/-- Of the blocks reached so far, those that are not queued are settled. Blocks not reached have no frames. -/
structure Consistent (c : Code) (g : Graph) (pool : Pool) (flow : Flow) (queue : List Nat) : Prop where
  entries : flow.entries.length = g.blocks.size
  frames : flow.frames.size = c.size
  start : ∃ f, flow.entries.entry 0 = some f ∧ f.Covers {}
  settled : ∀ {id : Nat} {b : Block} {f}, g.blocks[id]? = some b → flow.entries.entry id = some f →
    id ∈ queue ∨ Settled c g pool flow id b f
  silent : ∀ {id : Nat} {b : Block}, g.blocks[id]? = some b → flow.entries.entry id = none →
    ∀ i ∈ b.indices, flow.frameAt i = none

theorem Settled.keep {flow flow' : Flow} {id : Nat} {b : Block} {f : Frame Constant}
    (hs : Settled c g pool flow id b f) (hframes : ∀ i ∈ b.indices, flow'.frameAt i = flow.frameAt i)
    (hcov : ∀ id old, flow.entries.entry id = some old → ∃ new, flow'.entries.entry id = some new ∧ new.Covers old) :
    Settled c g pool flow' id b f := by
  refine ⟨fun i hi => ?_, ?_⟩
  · rw [hframes i hi]
    exact hs.frames i hi
  · obtain ⟨f', hf', hsent⟩ := hs.sent
    refine ⟨f', hf', fun e he => ?_⟩
    obtain ⟨t, ht, hc⟩ := hsent e he
    obtain ⟨t', ht', hc'⟩ := hcov _ t ht
    exact ⟨t', ht', hc'.trans hc⟩

theorem settled_of_visit (hl : g.Laid c) {flow flow' : Flow} {id : Nat} {b : Block} {f f' : Frame Constant}
    {rest queue : List Nat} (hsize : flow.frames.size = c.size) (hb : g.blocks[id]? = some b)
    (hr : runBlock c pool b.indices f flow.frames = .ok (f', flow'.frames))
    (hs : Spread f' (b.last?.bind c.instruction?) (g.successors id) flow.entries flow'.entries rest queue) :
    Settled c g pool flow' id b f := by
  obtain ⟨hrun, -, -, hat⟩ := runBlock_eq_ok hr
  refine ⟨fun i hi => ?_, f', hrun, hs.sent⟩
  have hlt : i < c.size := Nat.lt_of_lt_of_le (Block.mem_indices.mp hi).2 (hl.stop_le_size hb)
  obtain ⟨post, hsplit, hpost⟩ := Block.indices_split hi
  obtain ⟨p, hp, hget⟩ := hat _ i post _ hsplit hpost (hsize ▸ hlt) (Array.getElem?_eq_getElem hlt)
  exact ⟨_, p, by rw [frameAt, hget]; rfl, hp, funext (Frame.word_seek p _)⟩

/-- A visit settles its block, unless it queues it again, and leaves settled what was. -/
theorem Consistent.visit (hl : g.Laid c) {flow flow' : Flow} {id : Nat} {rest queue : List Nat}
    (hi : Consistent c g pool flow (id :: rest)) (hv : visit c g pool flow id rest = .ok (flow', queue)) :
    Consistent c g pool flow' queue := by
  rcases visit_eq_ok hv with ⟨rfl, rfl, hnone⟩ | ⟨b, f, f', hb, hf, hr, hsp⟩
  · refine { hi with settled := fun {id' b' f'} hb' hf' => ?_ }
    rcases hi.settled hb' hf' with hq | hs
    · rcases List.mem_cons.mp hq with rfl | hq
      · rw [hnone b' hb'] at hf'; cases hf'
      · exact .inl hq
    · exact .inr hs
  · have hs := spread_eq_ok (fun e he => hi.entries ▸ hl.target (Graph.mem_successors.mp he).1) hsp
    obtain ⟨-, hsize, hother, -⟩ := runBlock_eq_ok hr
    -- blocks share no instruction, so the frames of the others stay
    have hframes : ∀ {id' b'}, g.blocks[id']? = some b' → id' ≠ id → ∀ i ∈ b'.indices,
        flow'.frameAt i = flow.frameAt i := by
      intro id' b' hb' hne i hi'
      rw [frameAt, hother i fun h => hne (hl.block_unique hb' hi' hb h)]
      rfl
    refine ⟨hs.length.trans hi.entries, hsize.trans hi.frames, ?_, ?_, ?_⟩
    · obtain ⟨f₀, hf₀, hc⟩ := hi.start
      obtain ⟨f₁, hf₁, hc'⟩ := hs.covers 0 f₀ hf₀
      exact ⟨f₁, hf₁, hc'.trans hc⟩
    · intro id' b' f₁ hb' hf₁
      rcases hs.word id' with hq | hw
      · exact .inl hq
      · rw [hf₁] at hw
        obtain ⟨f₀, hf₀, hw⟩ := Option.map_eq_some_iff.mp hw.symm
        by_cases hid : id' = id
        · subst hid
          rw [hb] at hb'
          cases hb'
          rw [hf] at hf₀
          cases hf₀
          exact .inr ((settled_of_visit hl hi.frames hb hr hs).congr hw)
        · rcases hi.settled hb' hf₀ with hq | hset
          · exact .inl (hs.queue id' ((List.mem_cons.mp hq).resolve_left hid))
          · exact .inr ((hset.keep (hframes hb' hid) hs.covers).congr hw)
    · intro id' b' hb' hnone i hi'
      have hold : flow.entries.entry id' = none := by
        cases ho : flow.entries.entry id' with
        | none => rfl
        | some old =>
          obtain ⟨new, hnew, -⟩ := hs.covers id' old ho
          rw [hnone] at hnew; cases hnew
      have hid : id' ≠ id := fun h => by
        subst h; rw [hf] at hold; cases hold
      rw [hframes hb' hid i hi']
      exact hi.silent hb' hold i hi'

/-! ## The result -/

theorem entryBlock_eq (hl : g.Laid c) : entryBlock? g = some 0 := by
  obtain ⟨b, hb, h0⟩ := Option.map_eq_some_iff.mp hl.first
  obtain ⟨hs, rfl⟩ := Array.getElem?_eq_some_iff.mp hb
  have hocc := hl.occupied hb
  rw [entryBlock?, Array.findIdx?_eq_some_iff_getElem]
  refine ⟨hs, ?_, fun j hj => absurd hj (Nat.not_lt_zero j)⟩
  rw [Block.isEmpty, h0, beq_self_eq_true, Bool.true_and, Bool.not_eq_true', decide_eq_false_iff_not]
  omega

theorem entry_initial (hl : g.Laid c) (id : Nat) :
    (initial c g).entries.entry id = if id = 0 then some {} else none := by
  have hpos : 0 < g.blocks.size := by
    obtain ⟨b, hb, -⟩ := Option.map_eq_some_iff.mp hl.first
    exact (Array.getElem?_eq_some_iff.mp hb).1
  simp only [initial, entryBlock_eq hl]
  split
  · rename_i h
    subst h
    exact Entries.entry_set_self (by simpa using hpos) _
  · rename_i h
    rw [Entries.entry_set_ne (fun h' => h h'.symm), Entries.entry, List.getElem?_replicate]
    split <;> rfl

theorem Consistent.initial (hl : g.Laid c) : Consistent c g pool (initial c g) [0] := by
  refine ⟨?_, ?_, ⟨{}, by rw [entry_initial hl]; rfl, .of_word rfl⟩, fun {id b f} _ hf => ?_, fun _ _ i _ => ?_⟩
  · simp [Flow.initial, entryBlock_eq hl]
  · simp [Flow.initial]
  · rw [entry_initial hl] at hf
    split at hf
    · rename_i h
      exact .inl (h ▸ List.mem_cons_self ..)
    · cases hf
  · simp only [frameAt, Flow.initial, Array.getElem?_replicate]
    split <;> rfl

theorem consistent_of_analyze (hl : g.Laid c) {flow : Flow} (h : analyze c g pool = .ok flow) :
    Consistent c g pool flow [] := by
  rw [analyze, entryBlock_eq hl] at h
  exact drain_induct (I := Consistent c g pool) (fun hi hv => hi.visit hl hv) (.initial hl) h

theorem settled_of_analyze (hl : g.Laid c) {flow : Flow} (h : analyze c g pool = .ok flow) {id : Nat} {b : Block}
    {f : Frame Constant} (hb : g.blocks[id]? = some b) (hf : flow.entries.entry id = some f) :
    Settled c g pool flow id b f :=
  ((consistent_of_analyze hl h).settled hb hf).resolve_left (by simp)

/-- A property of entries that holds at the start, is kept by merges, and is passed on by every block
holds of all entries in the end. -/
theorem entries_induct (hl : g.Laid c) {Q : Nat → Frame Constant → Prop} (h0 : Q 0 {})
    (hmerge : ∀ {id f g h ch}, Q id f → Q id g → f.merge Constant.join g = .ok (h, ch) → Q id h)
    (hsend : ∀ {id b f f' e}, g.blocks[id]? = some b → Q id f → Frame.run c pool b.indices f = .ok f' →
      e ∈ g.successors id → Q e.target (outgoing f' (b.last?.bind c.instruction?) e.kind))
    {flow : Flow} (h : analyze c g pool = .ok flow) :
    ∀ id f, flow.entries.entry id = some f → Q id f := by
  rw [analyze, entryBlock_eq hl] at h
  refine (drain_induct (I := fun flow queue => Consistent c g pool flow queue ∧
    ∀ id f, flow.entries.entry id = some f → Q id f) ?_ ⟨.initial hl, ?_⟩ h).2
  · intro flow id rest flow' queue ⟨hi, hq⟩ hv
    refine ⟨hi.visit hl hv, ?_⟩
    rcases visit_eq_ok hv with ⟨rfl, -, -⟩ | ⟨b, f, f', hb, hf, hr, hsp⟩
    · exact hq
    · exact spread_induct (Q := Q) hmerge (fun e he => hi.entries ▸ hl.target (Graph.mem_successors.mp he).1) hsp
        (fun e he => hsend hb (hq id f hf) (runBlock_eq_ok hr).1 he) hq
  · intro id f hf
    rw [entry_initial hl] at hf
    split at hf
    · rename_i hid
      cases hf
      exact hid ▸ h0
    · cases hf

end

end Flow

end SinkCheck
