import SinkCheck.Proofs.Agreement
import SinkCheck.Proofs.Paths

/-!
# One pass from the top down

The replay passes once over the blocks, and a frame that leaves a block waits for its target. What is to be
known of the running frame and of the frames sent along edges is a parameter here: if it is carried along by
instructions, edges and joins, it holds before every instruction, provided that every block is entered from
above.
-/

namespace SinkCheck

/-- A handler is entered by an exception, and any other block but the first from a block above it. -/
structure Graph.EnteredFromAbove (g : Graph) : Prop where
  handler : ∀ {id : Nat} {b : Block}, g.blocks[id]? = some b → b.isHandler = true →
    ∃ e ∈ g.edges, e.target = id ∧ e.kind = .exception
  plain : ∀ {id : Nat} {b : Block}, g.blocks[id]? = some b → b.isHandler = false → id ≠ 0 →
    ∃ e ∈ g.edges, e.target = id ∧ e.source < id ∧ e.kind ≠ .exception

namespace Graph

def returnWords (g : Graph) (c : Code) (e : Edge) : Nat :=
  if e.kind = .branch then ((g.lastInstruction? c e.source).map Instruction.branchPushWords).getD 0 else 0

def FromAbove (g : Graph) (lo hi : Nat) (e : Edge) : Prop :=
  e ∈ g.edges ∧ e.source < lo ∧ hi ≤ e.target ∧ e.kind ≠ .exception

end Graph

/-! ## Steps of the pass -/

namespace Replay

section
variable (r : Replay)

def perform (i : Nat) (s : ReplayState) : Except AnalysisError ReplayState :=
  match r.code.body[i]? with
  | none => .ok s
  | some h => s.execute r.policy r.pool h

theorem outcome_narrate (h : Placed) (s : ReplayState) : (r.narrate h s).outcome = .ok () := by
  unfold narrate
  split <;> rfl

theorem outcome_walk_cons (target : Nat) (l : Location) (ls : List Location) (current : Option Nat) (s : ReplayState) :
    (r.walk target (l :: ls) current s).outcome = (r.cross current l.block s).bind fun s =>
      if l.index = target then .ok (some s.frame)
      else (r.perform l.index s).bind fun s => (r.walk target ls (some l.block) s).outcome := by
  rw [walk, Trace.outcome_bind, Trace.ofExcept]
  cases r.cross current l.block s with
  | error e => rfl
  | ok s =>
    simp only [Except.bind]
    split
    · rfl
    · unfold perform
      cases r.code.body[l.index]? with
      | none => rfl
      | some h =>
        simp only [Trace.outcome_bind, Trace.ofExcept, outcome_narrate]
        cases s.execute r.policy r.pool h <;> rfl

end

end Replay

namespace ReplayState

theorem fallen_eq_some {s : ReplayState} {id : Nat} {f : Frame Cell} :
    s.fallen id = some f ↔ s.falling = some (id, f) := by
  unfold fallen
  constructor
  · intro h
    obtain ⟨⟨t, f'⟩, hf, h⟩ := Option.bind_eq_some_iff.mp h
    simp only at h
    split at h
    · rename_i ht
      cases h
      rw [hf, ht]
    · cases h
  · intro h
    rw [h]
    exact if_pos rfl

/-- The frame that came along the edge and still waits, joined with others that wait for the same block. -/
def recorded (s : ReplayState) (e : Edge) : Option (Frame Cell) :=
  if e.kind = .fallThrough then s.fallen e.target else s.pending e.target

def letFall (s : ReplayState) (target : Nat) (f : Frame Cell) : ReplayState :=
  { s with falling := some (target, f) }

/-- Sending records the frame for the target, with the return address on top of it if there is one. -/
theorem send_cases (s : ReplayState) (n : Nat) {e : Edge} (hkind : e.kind ≠ .exception) :
    (s.send n e).frame = s.frame ∧
      ∃ id, let f := s.frame.pushWords (.ofObject id false) (if e.kind = .branch then n else 0)
        (if e.kind = .fallThrough then s.letFall e.target f else s.await e.target f).Kept (s.send n e) := by
  unfold send
  cases hk : e.kind with
  | exception => exact absurd hk hkind
  | fallThrough => exact ⟨rfl, 0, rfl, rfl⟩
  | switch => exact ⟨rfl, 0, rfl, rfl⟩
  | branch =>
    simp only
    split
    · rename_i hn
      subst hn
      exact ⟨rfl, 0, rfl, rfl⟩
    · exact ⟨rfl, s.next, rfl, rfl⟩

/-- What waits was sent along some edge to the block it waits for, and what came along the edges of `P` still
waits. -/
structure Awaits (sent : Edge → Frame Cell → Prop) (P : Edge → Prop) (s : ReplayState) : Prop where
  pending : ∀ {t f}, s.pending t = some f → ∃ e, e.target = t ∧ sent e f
  falling : ∀ {t f}, s.falling = some (t, f) → ∃ e, e.target = t ∧ sent e f
  received : ∀ e, P e → ∃ f, s.recorded e = some f ∧ sent e f

section
variable {sent : Edge → Frame Cell → Prop} {P Q : Edge → Prop} {s s' : ReplayState}

theorem Awaits.mono (hw : Awaits sent P s) (hqp : ∀ e, Q e → P e) : Awaits sent Q s :=
  ⟨hw.pending, hw.falling, fun e he => hw.received e (hqp e he)⟩

theorem Awaits.kept (hw : Awaits sent P s) (hk : s.Kept s') : Awaits sent P s' := by
  refine ⟨fun h => hw.pending (hk.pending ▸ h), fun h => hw.falling (hk.falling ▸ h), fun e he => ?_⟩
  have hrec : s'.recorded e = s.recorded e := by
    unfold recorded fallen
    rw [hk.pending, hk.falling]
  rw [hrec]
  exact hw.received e he

theorem recorded_of_fall {e : Edge} (hk : e.kind = .fallThrough) : s.recorded e = s.fallen e.target :=
  if_pos hk

theorem recorded_of_jump {e : Edge} (hk : e.kind ≠ .fallThrough) : s.recorded e = s.pending e.target :=
  if_neg hk

theorem Awaits.letFall (hw : Awaits sent P s) {e : Edge} {f : Frame Cell} (hk : e.kind = .fallThrough) (hf : sent e f)
    (hfall : ∀ e', P e' → e'.kind = .fallThrough → e' = e) :
    Awaits sent (fun e' => e' = e ∨ P e') (s.letFall e.target f) := by
  refine ⟨hw.pending, fun h => ?_, fun e' he' => ?_⟩
  · cases h
    exact ⟨e, rfl, hf⟩
  · by_cases hk' : e'.kind = .fallThrough
    · have heq : e' = e := by
        rcases he' with h | h
        · exact h
        · exact hfall e' h hk'
      subst heq
      exact ⟨f, by rw [recorded_of_fall hk, fallen_eq_some]; rfl, hf⟩
    · have hP : P e' := he'.resolve_left fun h => hk' (h ▸ hk)
      obtain ⟨g, hg, hsg⟩ := hw.received e' hP
      rw [recorded_of_jump hk'] at hg
      exact ⟨g, by rw [recorded_of_jump hk']; exact hg, hsg⟩

section
variable (hmerge : ∀ {e e' f f'}, e.target = e'.target → sent e f → sent e' f' →
  ∃ j changed, f.merge Cell.join f' = .ok (j, changed) ∧ sent e j ∧ sent e' j)
include hmerge

theorem Awaits.pending_await (hw : Awaits sent P s) {e : Edge} {f : Frame Cell} (hf : sent e f) :
    ∃ g, (s.await e.target f).pending e.target = some g ∧ sent e g ∧
      ∀ e' g', e'.target = e.target → s.pending e.target = some g' → sent e' g' → sent e' g := by
  unfold ReplayState.await
  simp only [if_true]
  refine ⟨_, rfl, ?_⟩
  cases hp : s.pending e.target with
  | none => exact ⟨hf, fun e' g' _ h => by cases h⟩
  | some earlier =>
    obtain ⟨e₀, ht₀, hs₀⟩ := hw.pending hp
    obtain ⟨j, changed, hj, -, hs⟩ := hmerge ht₀ hs₀ hf
    simp only [hj]
    refine ⟨hs, fun e' g' ht h hs' => ?_⟩
    cases h
    obtain ⟨j', changed', hj', hs'', -⟩ := hmerge ht hs' hf
    rw [hj] at hj'
    cases hj'
    exact hs''

theorem Awaits.await (hw : Awaits sent P s) {e : Edge} {f : Frame Cell} (hk : e.kind ≠ .fallThrough) (hf : sent e f) :
    Awaits sent (fun e' => e' = e ∨ P e') (s.await e.target f) := by
  obtain ⟨g, hg, hsg, hothers⟩ := hw.pending_await hmerge hf
  have hne : ∀ t, t ≠ e.target → (s.await e.target f).pending t = s.pending t := fun t ht => if_neg ht
  refine ⟨fun {t f'} h => ?_, hw.falling, fun e' he' => ?_⟩
  · by_cases ht : t = e.target
    · subst ht
      rw [hg] at h
      cases h
      exact ⟨e, rfl, hsg⟩
    · rw [hne t ht] at h
      exact hw.pending h
  · rcases he' with rfl | hP
    · exact ⟨g, by rw [recorded_of_jump hk, hg], hsg⟩
    · obtain ⟨g', hg', hsg'⟩ := hw.received e' hP
      by_cases hk' : e'.kind = .fallThrough
      · rw [recorded_of_fall hk'] at hg'
        exact ⟨g', by rw [recorded_of_fall hk']; exact hg', hsg'⟩
      · rw [recorded_of_jump hk'] at hg' ⊢
        by_cases ht : e'.target = e.target
        · rw [ht] at hg' ⊢
          exact ⟨g, hg, hothers e' g' ht hg' hsg'⟩
        · exact ⟨g', (hne _ ht).trans hg', hsg'⟩

theorem Awaits.send (hw : Awaits sent P s) {n : Nat} {e : Edge} (hkind : e.kind ≠ .exception)
    (hsent : ∀ id, sent e (s.frame.pushWords (.ofObject id false) (if e.kind = .branch then n else 0)))
    (hfall : ∀ e', P e' → e'.kind = .fallThrough → e.kind = .fallThrough → e' = e) :
    Awaits sent (fun e' => e' = e ∨ P e') (s.send n e) := by
  obtain ⟨-, id, hkept⟩ := send_cases s n hkind
  refine Awaits.kept ?_ hkept
  split
  · rename_i hk
    exact hw.letFall hk (hsent id) fun e' he' hk' => hfall e' he' hk' hk
  · rename_i hk
    exact hw.await hmerge hk (hsent id)

/-- Sending along all edges. Of the edges out of one block at most one falls through. -/
theorem Awaits.sendAll {n : Nat} {edges : List Edge} (hw : Awaits sent P s)
    (hsent : ∀ e ∈ edges, e.kind ≠ .exception →
      ∀ id, sent e (s.frame.pushWords (.ofObject id false) (if e.kind = .branch then n else 0)))
    (hfall : ∀ e ∈ edges, ∀ e', e' ∈ edges ∨ P e' → e'.kind = .fallThrough → e.kind = .fallThrough → e' = e) :
    Awaits sent (fun e => e ∈ edges ∧ e.kind ≠ .exception ∨ P e) (edges.foldl (fun s e => s.send n e) s) := by
  induction edges generalizing P s with
  | nil => exact hw.mono fun e he => he.resolve_left fun h => List.not_mem_nil h.1
  | cons e edges ih =>
    have htail : ∀ e₁ ∈ edges, ∀ e', e' ∈ edges ∨ (e' = e ∨ P e') → e'.kind = .fallThrough →
        e₁.kind = .fallThrough → e' = e₁ := by
      intro e₁ he₁ e' he'
      refine hfall e₁ (List.mem_cons_of_mem _ he₁) e' ?_
      rcases he' with h | rfl | h
      · exact .inl (List.mem_cons_of_mem _ h)
      · exact .inl (List.mem_cons_self ..)
      · exact .inr h
    rw [List.foldl_cons]
    by_cases hkind : e.kind = .exception
    · have hsame : s.send n e = s := by rw [ReplayState.send, hkind]
      rw [hsame]
      refine (ih hw (fun e' he' => hsent e' (List.mem_cons_of_mem _ he'))
        fun e₁ he₁ e' he' => htail e₁ he₁ e' (he'.imp_right .inr)).mono fun e' he' => ?_
      rcases he' with ⟨hmem, hne⟩ | hP
      · exact .inl ⟨(List.mem_cons.mp hmem).resolve_left fun h => hne (h ▸ hkind), hne⟩
      · exact .inr hP
    · have hw' := hw.send hmerge hkind (hsent e (List.mem_cons_self ..) hkind)
        fun e' he' => hfall e (List.mem_cons_self ..) e' (.inr he')
      refine (ih hw' (fun e' he' => ?_) htail).mono fun e' he' => ?_
      · rw [(send_cases s n hkind).1]
        exact hsent e' (List.mem_cons_of_mem _ he')
      · rcases he' with ⟨hmem, hne⟩ | hP
        · rcases List.mem_cons.mp hmem with h | h
          · exact .inr (.inl h)
          · exact .inl ⟨h, hne⟩
        · exact .inr (.inr hP)

end

end

/-! ## Leaving and entering blocks -/

section
variable {c : Code} {g : Graph} {sent : Edge → Frame Cell → Prop} {s : ReplayState} {id : Nat} (hl : g.Laid c)
  (hmerge : ∀ {e e' f f'}, e.target = e'.target → sent e f → sent e' f' →
    ∃ j changed, f.merge Cell.join f' = .ok (j, changed) ∧ sent e j ∧ sent e' j)
include hl

theorem jump_of_fromAbove {e : Edge} (he : g.FromAbove id (id + 1) e) : e.kind ≠ .fallThrough := by
  obtain ⟨hmem, hlo, hhi, -⟩ := he
  intro hk
  have := hl.falls hmem hk
  omega

include hmerge in
theorem Awaits.leave (hw : Awaits sent (g.FromAbove id (id + 1)) s)
    (hsent : ∀ e ∈ g.successors id, e.kind ≠ .exception →
      ∀ n, sent e (s.frame.pushWords (.ofObject n false) (g.returnWords c e))) :
    Awaits sent (g.FromAbove (id + 1) (id + 1)) (s.leave (g.successors id) (g.lastInstruction? c id)) := by
  have hw₀ : Awaits sent (g.FromAbove id (id + 1)) { s with falling := none } := by
    refine ⟨hw.pending, fun h => (by cases h), fun e he => ?_⟩
    obtain ⟨f, hf, hs⟩ := hw.received e he
    have hk := jump_of_fromAbove hl he
    rw [recorded_of_jump hk] at hf
    exact ⟨f, by rw [recorded_of_jump hk]; exact hf, hs⟩
  have hall : Awaits sent (fun e => e ∈ g.successors id ∧ e.kind ≠ .exception ∨ g.FromAbove id (id + 1) e)
      (s.leave (g.successors id) (g.lastInstruction? c id)) := by
    refine hw₀.sendAll hmerge (fun e he hk n => ?_) (fun e he e' he' hk' hk => ?_)
    · have := hsent e he hk n
      rwa [Graph.returnWords, (Graph.mem_successors.mp he).2] at this
    · rcases he' with he' | he'
      · -- both fall from this block into the next
        obtain ⟨hmem, hsource⟩ := Graph.mem_successors.mp he
        obtain ⟨hmem', hsource'⟩ := Graph.mem_successors.mp he'
        have ht := hl.falls hmem hk
        have ht' := hl.falls hmem' hk'
        obtain ⟨source, target, kind⟩ := e
        obtain ⟨source', target', kind'⟩ := e'
        simp_all
      · exact absurd hk' (jump_of_fromAbove hl he')
  refine hall.mono fun e he => ?_
  obtain ⟨hmem, hlo, hhi, hk⟩ := he
  by_cases hid : e.source = id
  · exact .inl ⟨Graph.mem_successors.mpr ⟨hmem, hid⟩, hk⟩
  · exact .inr ⟨hmem, by omega, hhi, hk⟩

theorem Awaits.forget (hw : Awaits sent (g.FromAbove id id) s) {s' : ReplayState} (hk : (s.forget id).Kept s') :
    Awaits sent (g.FromAbove id (id + 1)) s' := by
  refine Awaits.kept ⟨fun {t f} h => ?_, fun h => (by cases h), fun e he => ?_⟩ hk
  · simp only [ReplayState.forget] at h
    split at h
    · cases h
    · exact hw.pending h
  · have hjump := jump_of_fromAbove hl he
    obtain ⟨hmem, hlo, hhi, hkind⟩ := he
    obtain ⟨f, hf, hs⟩ := hw.received e ⟨hmem, hlo, by omega, hkind⟩
    rw [recorded_of_jump hjump] at hf
    refine ⟨f, ?_, hs⟩
    rw [recorded_of_jump hjump]
    exact (if_neg (by omega)).trans hf

include hmerge in
/-- A block that is entered from above starts with a frame that all edges from above have sent. -/
theorem Awaits.enter (hw : Awaits sent (g.FromAbove id id) s)
    (habove : ∃ e ∈ g.edges, e.target = id ∧ e.source < id ∧ e.kind ≠ .exception) :
    ∃ s', s.enter id false = .ok s' ∧ Awaits sent (g.FromAbove id (id + 1)) s' ∧
      ∀ e ∈ g.edges, e.target = id → e.source < id → e.kind ≠ .exception → sent e s'.frame := by
  have hrec : ∀ e ∈ g.edges, e.target = id → e.source < id → e.kind ≠ .exception →
      (∃ f, s.fallen id = some f ∧ sent e f) ∨ ∃ f, s.pending id = some f ∧ sent e f := by
    intro e he ht hlo hk
    obtain ⟨f, hf, hs⟩ := hw.received e ⟨he, hlo, Nat.le_of_eq ht.symm, hk⟩
    by_cases hfall : e.kind = .fallThrough
    · rw [recorded_of_fall hfall, ht] at hf
      exact .inl ⟨f, hf, hs⟩
    · rw [recorded_of_jump hfall, ht] at hf
      exact .inr ⟨f, hf, hs⟩
  have hkept : ∀ f, Awaits sent (g.FromAbove id (id + 1)) ((s.forget id).setFrame f) :=
    fun f => hw.forget hl ⟨rfl, rfl⟩
  unfold ReplayState.enter
  simp only [Bool.false_eq_true, if_false]
  cases hf : s.fallen id with
  | none =>
    cases hp : s.pending id with
    | none =>
      obtain ⟨e, he, ht, hlo, hk⟩ := habove
      rcases hrec e he ht hlo hk with ⟨f, h, -⟩ | ⟨f, h, -⟩
      · rw [hf] at h; cases h
      · rw [hp] at h; cases h
    | some f =>
      refine ⟨_, rfl, hkept f, fun e he ht hlo hk => ?_⟩
      rcases hrec e he ht hlo hk with ⟨f', h, hs⟩ | ⟨f', h, hs⟩
      · rw [hf] at h; cases h
      · rw [hp] at h; cases h
        exact hs
  | some f =>
    cases hp : s.pending id with
    | none =>
      refine ⟨_, rfl, hkept f, fun e he ht hlo hk => ?_⟩
      rcases hrec e he ht hlo hk with ⟨f', h, hs⟩ | ⟨f', h, hs⟩
      · rw [hf] at h; cases h
        exact hs
      · rw [hp] at h; cases h
    | some f' =>
      obtain ⟨e₁, ht₁, hs₁⟩ := hw.falling (fallen_eq_some.mp hf)
      obtain ⟨e₂, ht₂, hs₂⟩ := hw.pending hp
      obtain ⟨j, changed, hj, -, -⟩ := hmerge (ht₁.trans ht₂.symm) hs₁ hs₂
      simp only [hj]
      refine ⟨_, rfl, hkept j, fun e he ht hlo hk => ?_⟩
      rcases hrec e he ht hlo hk with ⟨f₁, h, hs⟩ | ⟨f₁, h, hs⟩
      · rw [hf] at h
        cases h
        obtain ⟨j', changed', hj', hs', -⟩ := hmerge (ht.trans ht₂.symm) hs hs₂
        rw [hj] at hj'
        cases hj'
        exact hs'
      · rw [hp] at h
        cases h
        obtain ⟨j', changed', hj', -, hs'⟩ := hmerge (ht₁.trans ht.symm) hs₁ hs
        rw [hj] at hj'
        cases hj'
        exact hs'

end

end ReplayState

/-! ## The whole pass -/

namespace Replay

/-- What instructions, edges and joins carry along: `inside id n` of the frame before instruction `n` of block
`id`, `sent e` of a frame that came along `e`, also when others have been joined in. -/
structure Carried (r : Replay) (inside : Nat → Nat → Frame Cell → Prop) (sent : Edge → Frame Cell → Prop) : Prop where
  start : inside 0 0 { locals := r.locals }
  thrown : ∀ {id : Nat} {b}, r.graph.blocks[id]? = some b → b.isHandler = true →
    ∀ n locals, inside id b.start { stack := [.ofObject n false], locals }
  execute : ∀ {id n : Nat} {b h} {s : ReplayState}, r.graph.blocks[id]? = some b → n ∈ b.indices → r.code.body[n]? = some h →
    inside id n s.frame → ∃ s', s.execute r.policy r.pool h = .ok s' ∧ inside id (n + 1) s'.frame
  leave : ∀ {id : Nat} {b f e}, r.graph.blocks[id]? = some b → inside id b.stop f → e ∈ r.graph.successors id →
    e.kind ≠ .exception → ∀ n, sent e (f.pushWords (.ofObject n false) (r.graph.returnWords r.code e))
  merge : ∀ {e e' f f'}, e.target = e'.target → sent e f → sent e' f' →
    ∃ j changed, f.merge Cell.join f' = .ok (j, changed) ∧ sent e j ∧ sent e' j
  enter : ∀ {id : Nat} {b f}, r.graph.blocks[id]? = some b → b.isHandler = false → id ≠ 0 →
    (∀ e ∈ r.graph.edges, e.target = id → e.source < id → e.kind ≠ .exception → sent e f) → inside id b.start f

section
variable {r : Replay} {inside : Nat → Nat → Frame Cell → Prop} {sent : Edge → Frame Cell → Prop}

structure Inside (r : Replay) (inside : Nat → Nat → Frame Cell → Prop) (sent : Edge → Frame Cell → Prop)
    (id n : Nat) (b : Block) (s : ReplayState) : Prop where
  block : r.graph.blocks[id]? = some b
  start_le : b.start ≤ n
  le_stop : n ≤ b.stop
  frame : inside id n s.frame
  awaits : s.Awaits sent (r.graph.FromAbove id (id + 1))

def Ready (r : Replay) (inside : Nat → Nat → Frame Cell → Prop) (sent : Edge → Frame Cell → Prop) (n : Nat)
    (s : ReplayState) : Option Nat → Prop
  | none => n = 0 ∧ s = .ofLocals r.locals
  | some id => ∃ b, r.Inside inside sent id n b s

section
variable (hl : r.graph.Laid r.code) (hc : r.Carried inside sent) {id n : Nat} {b : Block} {s : ReplayState}
include hl hc

theorem Inside.execute (hi : r.Inside inside sent id n b s) (hn : n < b.stop) :
    ∃ s', r.perform n s = .ok s' ∧ r.Inside inside sent id (n + 1) b s' := by
  have hstop := hl.stop_le_size hi.block
  have hb := Array.getElem?_eq_getElem (Nat.lt_of_lt_of_le hn hstop)
  obtain ⟨s', hs', hin⟩ := hc.execute hi.block (Block.mem_indices.mpr ⟨hi.start_le, hn⟩) hb hi.frame
  refine ⟨s', ?_, hi.block, Nat.le_succ_of_le hi.start_le, hn, hin, hi.awaits.kept (ReplayState.kept_of_execute hs')⟩
  rw [perform, hb]
  exact hs'

theorem Inside.leave (hi : r.Inside inside sent id b.stop b s) :
    (s.leave (r.graph.successors id) (r.graph.lastInstruction? r.code id)).Awaits sent
      (r.graph.FromAbove (id + 1) (id + 1)) :=
  hi.awaits.leave hl hc.merge fun _ he hk => hc.leave hi.block hi.frame he hk

theorem enter_start (hb : r.graph.blocks[0]? = some b) :
    ∃ s', (ReplayState.ofLocals r.locals).enter 0 b.isHandler = .ok s' ∧ r.Inside inside sent 0 b.start b s' := by
  have hstart : b.start = 0 := by
    obtain ⟨b₀, hb₀, hstart⟩ := Option.map_eq_some_iff.mp hl.first
    rw [hb] at hb₀
    exact Option.some.inj hb₀ ▸ hstart
  have hocc := hl.occupied hb
  have hw : (ReplayState.ofLocals r.locals).Awaits sent (r.graph.FromAbove 0 0) :=
    ⟨fun h => (by cases h), fun h => (by cases h), fun e he => absurd he.2.1 (Nat.not_lt_zero _)⟩
  unfold ReplayState.enter
  cases hh : b.isHandler with
  | true =>
    exact ⟨_, rfl, hb, Nat.le_refl _, Nat.le_of_lt hocc, hc.thrown hb hh _ _, hw.forget hl ⟨rfl, rfl⟩⟩
  | false =>
    refine ⟨_, rfl, hb, Nat.le_refl _, Nat.le_of_lt hocc, ?_, hw.forget hl ⟨rfl, rfl⟩⟩
    rw [hstart]
    exact hc.start

variable (habove : r.graph.EnteredFromAbove)
include habove

theorem enter_next (hb : r.graph.blocks[id]? = some b) (hid : id ≠ 0)
    (hw : s.Awaits sent (r.graph.FromAbove id id)) :
    ∃ s', s.enter id b.isHandler = .ok s' ∧ r.Inside inside sent id b.start b s' := by
  have hocc := Nat.le_of_lt (hl.occupied hb)
  cases hh : b.isHandler with
  | true =>
    refine ⟨_, rfl, hb, Nat.le_refl _, hocc, hc.thrown hb hh _ _, hw.forget hl ⟨rfl, rfl⟩⟩
  | false =>
    obtain ⟨s', hs', hw', hsent⟩ := hw.enter hl hc.merge (habove.plain hb hh hid)
    exact ⟨s', hs', hb, Nat.le_refl _, hocc, hc.enter hb hh hid hsent, hw'⟩

theorem cross_inside {current : Option Nat} (hr : r.Ready inside sent n s current)
    (hloc : ⟨n, id⟩ ∈ r.graph.orderedLocations) :
    ∃ s' b, r.cross current id s = .ok s' ∧ r.Inside inside sent id n b s' ∧ n < b.stop := by
  obtain ⟨b', hb', hn⟩ := hl.mem_orderedLocations.mp hloc
  have hn' := Block.mem_indices.mp hn
  cases current with
  | none =>
    obtain ⟨rfl, rfl⟩ := hr
    obtain ⟨rfl, hstart⟩ := hl.block_first hb' hn
    obtain ⟨s', hs', hi⟩ := enter_start hl hc hb'
    rw [hstart] at hi
    refine ⟨s', b', ?_, hi, hn'.2⟩
    rw [cross, if_neg (by simp), hb']
    exact hs'
  | some old =>
    obtain ⟨b, hi⟩ := hr
    have hb := hi.block
    by_cases hsame : old = id
    · subst hsame
      rw [hb'] at hb
      cases hb
      exact ⟨s, b', if_pos rfl, hi, hn'.2⟩
    · -- the old block is done and the new one comes next
      have hend : n = b.stop := by
        refine Classical.byContradiction fun hne => hsame (hl.block_unique hb ?_ hb' hn)
        exact Block.mem_indices.mpr ⟨hi.start_le, Nat.lt_of_le_of_ne hi.le_stop hne⟩
      subst hend
      obtain ⟨rfl, hstart⟩ := hl.block_next hb hb' hn
      obtain ⟨s', hs', hi'⟩ := enter_next hl hc habove hb' (Nat.succ_ne_zero old) (hi.leave hl hc)
      rw [hstart] at hi'
      refine ⟨s', b', ?_, hi', hn'.2⟩
      rw [cross, if_neg (fun h => hsame (Option.some.inj h)), hb']
      exact hs'

theorem walk_carried {target : Nat} (htarget : target < r.code.size) :
    ∀ {ls : List Location} {n : Nat} {current : Option Nat} {s : ReplayState}, n ≤ target →
      ls.map Location.index = List.range' n (r.code.size - n) → (∀ l ∈ ls, l ∈ r.graph.orderedLocations) →
      r.Ready inside sent n s current →
        ∃ id f, (r.walk target ls current s).outcome = .ok (some f) ∧ ⟨target, id⟩ ∈ r.graph.orderedLocations ∧
          inside id target f
  | [], n, current, s, hle, hls, _, _ => by
    have := congrArg List.length hls
    simp only [List.map_nil, List.length_nil, List.length_range'] at this
    omega
  | ⟨index, id⟩ :: ls, n, current, s, hle, hls, hmem, hr => by
    -- the locations ahead are in the order of the instructions, so the first is at `n`
    rw [show r.code.size - n = r.code.size - (n + 1) + 1 by omega, List.range'_succ, List.map_cons] at hls
    obtain ⟨hindex, hls⟩ := List.cons.inj hls
    simp only at hindex
    subst hindex
    have hloc := hmem _ (List.mem_cons_self ..)
    obtain ⟨s', b, hcross, hi, hn⟩ := cross_inside hl hc habove hr hloc
    rw [outcome_walk_cons, hcross]
    simp only [Except.bind]
    split
    · rename_i heq
      exact ⟨id, s'.frame, rfl, heq ▸ hloc, heq ▸ hi.frame⟩
    · rename_i hne
      obtain ⟨s₁, hs₁, hi₁⟩ := hi.execute hl hc hn
      rw [hs₁]
      exact walk_carried htarget (by omega) hls (fun l' hl' => hmem l' (List.mem_cons_of_mem _ hl')) ⟨b, hi₁⟩

/-- What is carried along holds before every instruction, and the replay gets there. -/
theorem runTo_carried {target : Nat} (htarget : target < r.code.size) :
    ∃ id f, (r.runTo target).outcome = .ok (some f) ∧ ⟨target, id⟩ ∈ r.graph.orderedLocations ∧
      inside id target f := by
  refine walk_carried hl hc habove htarget (Nat.zero_le _) ?_ (fun _ h => h) ⟨rfl, rfl⟩
  rw [hl.index_orderedLocations, Nat.sub_zero, List.range_eq_range']

end

end

end Replay

end SinkCheck
