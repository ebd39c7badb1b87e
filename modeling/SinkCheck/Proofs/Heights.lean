import Mathlib
import SinkCheck.Proofs.ControlFlow

/-!
# When the constant flow fails

Only heights decide whether an instruction can be executed and whether frames can be joined, and a joined entry
is as high as every path into its block. So the flow fails iff a path cannot be executed or two paths come to a
block with different heights, whatever the order in which blocks are taken from the worklist.
-/

namespace SinkCheck

/-! ## Heights -/

theorem Effect.demand_eq {e : Effect} (he : e ≠ .identity) : e.demand = e.net.1 := by
  cases e with
  | identity => exact absurd rfl he
  | _ => rfl

theorem Effect.length_pushed {e : Effect} (he : e ≠ .identity) : e.pushed.length = e.net.2 := by
  cases e with
  | identity => exact absurd rfl he
  | _ => simp [pushed, net]

namespace Instruction

/-- The height that the instruction leaves behind if it can be executed at height `n`. A cast leaves the top word
where it is, and does not ask for one. -/
def height (pool : Pool) (i : Instruction) (n : Nat) : Option Nat :=
  match i.effect pool with
  | .error _ => none
  | .ok .identity => some n
  | .ok e => if e.net.1 ≤ n then some (n - e.net.1 + e.net.2) else none

def Blocked (pool : Pool) (i : Instruction) (n : Nat) : Prop :=
  (∃ err, i.effect pool = .error err) ∨ ∃ e, i.effect pool = .ok e ∧ e ≠ .identity ∧ n < e.net.1

section
variable {pool : Pool} {i : Instruction} {n : Nat} {e : Effect}

theorem height_of_effect (he : i.effect pool = .ok e) (hne : e ≠ .identity) :
    i.height pool n = if e.net.1 ≤ n then some (n - e.net.1 + e.net.2) else none := by
  unfold height
  split
  · rename_i h
    rw [he] at h
    cases h
  · rename_i h
    rw [he] at h
    cases h
    exact absurd rfl hne
  · rename_i h
    rw [he] at h
    cases h
    rfl

theorem height_eq_none : i.height pool n = none ↔ i.Blocked pool n := by
  unfold Blocked
  cases he : i.effect pool with
  | error err => simp [height, he]
  | ok e =>
    by_cases hne : e = .identity
    · subst hne
      simp [height, he]
    · rw [height_of_effect he hne]
      simp [hne]

end

end Instruction

namespace Frame

theorem depth_execute (pool : Pool) (h : Placed) (f : Frame Constant) :
    (f.execute pool h).toOption.map depth = h.instruction.height pool f.depth := by
  cases he : h.instruction.effect pool with
  | error err => simp [execute, Instruction.height, he, Except.toOption]
  | ok e =>
    rw [execute, he]
    rcases Nat.lt_or_ge f.depth e.demand with hd | hd
    · have hne : e ≠ .identity := by
        rintro rfl
        exact Nat.not_lt_zero _ hd
      rw [Instruction.height_of_effect he hne, if_neg (Nat.not_le.mpr (Effect.demand_eq hne ▸ hd))]
      simp only [transfer_of_lt (f := f.seek h.position) hd]
      rfl
    · obtain ⟨f', hf', hm⟩ := transfer_of_le (f := f.seek h.position) hd
      have hdepth : f'.depth + e.demand = f.depth + e.pushed.length := hm.depth
      simp only [hf', Except.toOption, Option.map_some]
      by_cases hne : e = .identity
      · subst hne
        rw [Instruction.height, he]
        exact congrArg some hdepth
      · rw [Instruction.height_of_effect he hne, if_pos (Effect.demand_eq hne ▸ hd)]
        rw [Effect.demand_eq hne] at hdepth hd
        rw [Effect.length_pushed hne] at hdepth
        congr 1
        omega

end Frame

namespace Flow

section
variable (c : Code) (g : Graph) (pool : Pool)

def heightAfter : List Nat → Nat → Option Nat
  | [], n => some n
  | i :: is, n =>
    match c.instruction? i with
    | none => heightAfter is n
    | some j => (j.height pool n).bind (heightAfter is)

/-- The height with which an edge is left. A handler starts with the exception alone, a subroutine call puts its
return address on top. -/
def heightSent (e : Edge) (n : Nat) : Nat :=
  match e.kind with
  | .exception => 1
  | .branch => n + ((g.lastInstruction? c e.source).map Instruction.branchPushWords).getD 0
  | .fallThrough | .switch => n

def heightAlong : List Edge → Option Nat
  | [] => some 0
  | e :: es => (heightAlong es).bind fun n => (heightAfter c pool (g.indices e.source) n).map (heightSent c g e)

def heightAt (es : List Edge) (l : Location) : Option Nat :=
  (heightAlong c g pool es).bind (heightAfter c pool (g.before l))

def Obstructed : Prop :=
  ∃ es l i n, g.Path es l.block ∧ l ∈ g.orderedLocations ∧ c.instruction? l.index = some i ∧
    heightAt c g pool es l = some n ∧ i.Blocked pool n

def Uneven : Prop :=
  ∃ es es' id n n', g.Path es id ∧ g.Path es' id ∧ heightAlong c g pool es = some n ∧
    heightAlong c g pool es' = some n' ∧ n ≠ n'

end

section
variable {c : Code} {g : Graph} {pool : Pool}

theorem depth_run : ∀ (is : List Nat) (f : Frame Constant),
    (Frame.run c pool is f).toOption.map Frame.depth = heightAfter c pool is f.depth
  | [], f => rfl
  | i :: is, f => by
    cases hb : c.body[i]? with
    | none =>
      have hi : c.instruction? i = none := by rw [Code.instruction?, hb]; rfl
      simp only [Frame.run, hb, heightAfter, hi]
      exact depth_run is f
    | some h =>
      have hi : c.instruction? i = some h.instruction := by rw [Code.instruction?, hb]; rfl
      have hx := Frame.depth_execute pool h f
      simp only [Frame.run, hb, heightAfter, hi, ← hx]
      cases f.execute pool h with
      | error err => rfl
      | ok f' => exact depth_run is f'

theorem depth_outgoing (f : Frame Constant) (e : Edge) :
    (outgoing f (g.lastInstruction? c e.source) e.kind).depth = heightSent c g e f.depth := by
  unfold outgoing heightSent
  cases e.kind with
  | branch => simp [Frame.pushWords, Frame.depth, Nat.add_comm]
  | _ => rfl

theorem depth_along : ∀ es : List Edge, (along c g pool es).toOption.map Frame.depth = heightAlong c g pool es
  | [] => rfl
  | e :: es => by
    rw [along, heightAlong, ← depth_along es]
    cases along c g pool es with
    | error err => rfl
    | ok f =>
      simp only [Except.bind, Except.toOption, Option.map_some, Option.bind_some, ← depth_run]
      cases Frame.run c pool (g.indices e.source) f with
      | error err => rfl
      | ok f' => exact congrArg some (depth_outgoing f' e)

theorem depth_arriving (es : List Edge) (l : Location) :
    (arriving c g pool es l).toOption.map Frame.depth = heightAt c g pool es l := by
  rw [arriving, heightAt, ← depth_along es]
  cases along c g pool es with
  | error err => rfl
  | ok f => exact depth_run _ f

/-- A run that breaks off does so at an instruction that cannot be executed. -/
theorem blocked_of_heightAfter : ∀ {len start n : Nat}, heightAfter c pool (List.range' start len) n = none →
    ∃ k j m, k < len ∧ c.instruction? (start + k) = some j ∧
      heightAfter c pool (List.range' start k) n = some m ∧ j.Blocked pool m
  | 0, start, n, h => by cases h
  | len + 1, start, n, h => by
    rw [List.range'_succ, heightAfter] at h
    cases hi : c.instruction? start with
    | none =>
      rw [hi] at h
      obtain ⟨k, j, m, hk, hj, hm, hb⟩ := blocked_of_heightAfter h
      refine ⟨k + 1, j, m, Nat.succ_lt_succ hk, ?_, ?_, hb⟩
      · rw [← hj, Nat.add_right_comm, Nat.add_assoc]
      · rw [List.range'_succ, heightAfter, hi]
        exact hm
    | some j =>
      rw [hi] at h
      cases hx : j.height pool n with
      | none => exact ⟨0, j, n, Nat.succ_pos _, hi, rfl, Instruction.height_eq_none.mp hx⟩
      | some n' =>
        simp only [hx, Option.bind_some] at h
        obtain ⟨k, j', m, hk, hj, hm, hb⟩ := blocked_of_heightAfter h
        refine ⟨k + 1, j', m, Nat.succ_lt_succ hk, ?_, ?_, hb⟩
        · rw [← hj, Nat.add_right_comm, Nat.add_assoc]
        · simp only [List.range'_succ, heightAfter, hi, hx, Option.bind_some]
          exact hm

/-! ## Failures leave a path behind -/

theorem obstructed_of_run (hl : g.Laid c) {es : List Edge} {id : Nat} {b : Block} (hes : g.Path es id)
    (hb : g.blocks[id]? = some b) {n : Nat} (hn : heightAlong c g pool es = some n)
    (hrun : heightAfter c pool b.indices n = none) : Obstructed c g pool := by
  obtain ⟨k, j, m, hk, hj, hm, hblocked⟩ := blocked_of_heightAfter hrun
  have hi : b.start + k ∈ b.indices := Block.mem_indices.mpr (by omega)
  have hloc : ⟨b.start + k, id⟩ ∈ g.orderedLocations := hl.mem_orderedLocations.mpr ⟨b, hb, hi⟩
  refine ⟨es, ⟨b.start + k, id⟩, j, m, hes, hloc, hj, ?_, hblocked⟩
  have hbefore : g.before ⟨b.start + k, id⟩ = List.range' b.start k := by
    rw [Graph.before, hb, Option.map_some, Option.getD_some, Block.before, Nat.add_sub_cancel_left]
  rw [heightAt, hn, hbefore]
  exact hm

def Reached (c : Code) (g : Graph) (pool : Pool) (es : Entries) : Prop :=
  ∀ id f, es.entry id = some f → ∃ path, g.Path path id ∧ heightAlong c g pool path = some f.depth

theorem uneven_of_propagate {es : Entries} {t : Nat} {f : Frame Constant} {err : AnalysisError}
    (hr : Reached c g pool es) {path : List Edge} (hp : g.Path path t)
    (hh : heightAlong c g pool path = some f.depth) (h : es.propagate t f = .error err) : Uneven c g pool := by
  unfold Entries.propagate at h
  split at h
  · rename_i entry hget
    split at h
    · cases h
    · rename_i e hm
      obtain ⟨path', hp', hh'⟩ := hr t entry (by rw [Entries.entry, hget]; rfl)
      refine ⟨path', path, t, _, _, hp', hp, hh', hh, fun heq => ?_⟩
      obtain ⟨m, hok⟩ : ∃ m, entry.merge Constant.join f = .ok m := Frame.merge_of_depth heq
      rw [hok] at hm
      cases hm
  · cases h
  · cases h

theorem uneven_of_spread {f : Frame Constant} {last : Option Instruction} {err : AnalysisError} :
    ∀ {edges : List Edge} {es : Entries} {queue : List Nat}, (∀ e ∈ edges, e.target < es.length) →
      Reached c g pool es →
      (∀ e ∈ edges, ∃ path, g.Path path e.target ∧ heightAlong c g pool path = some (outgoing f last e.kind).depth) →
      spread f last edges es queue = .error err → Uneven c g pool
  | [], es, queue, _, _, _, h => by cases h
  | e :: edges, es, queue, ht, hr, hsent, h => by
    have hte := ht e (List.mem_cons_self ..)
    obtain ⟨path, hp, hh⟩ := hsent e (List.mem_cons_self ..)
    unfold spread at h
    split at h
    · rename_i e' hprop
      exact uneven_of_propagate hr hp hh hprop
    · rename_i es' changed hprop
      have hlen := Entries.length_propagate hte hprop
      refine uneven_of_spread (fun e' he' => hlen ▸ ht e' (List.mem_cons_of_mem _ he')) ?_
        (fun e' he' => hsent e' (List.mem_cons_of_mem _ he')) h
      refine Entries.propagate_induct (Q := fun id f => ∃ path, g.Path path id ∧
        heightAlong c g pool path = some f.depth) hte hprop ⟨path, hp, hh⟩ hr ?_
      intro id f₁ f₂ f₃ ch h₁ _ hm
      rwa [(Frame.depth_of_merge hm).2]

theorem runBlock_eq_error : ∀ {is : List Nat} {f : Frame Constant} {frames : Frames} {err : AnalysisError},
    runBlock c pool is f frames = .error err → Frame.run c pool is f = .error err
  | [], f, frames, err, h => by cases h
  | i :: is, f, frames, err, h => by
    rw [runBlock] at h
    rw [Frame.run]
    cases hb : c.body[i]? with
    | none =>
      rw [hb] at h
      exact runBlock_eq_error h
    | some p =>
      simp only [hb] at h ⊢
      cases hx : f.execute pool p with
      | error e =>
        rw [hx] at h
        cases h
        rfl
      | ok f' =>
        rw [hx] at h
        exact runBlock_eq_error h

theorem sent_path {path : List Edge} {id : Nat} {b : Block} {f f' : Frame Constant} (hp : g.Path path id)
    (hh : heightAlong c g pool path = some f.depth) (hb : g.blocks[id]? = some b)
    (hrun : Frame.run c pool b.indices f = .ok f') {e : Edge} (he : e ∈ g.successors id) :
    ∃ path, g.Path path e.target ∧
      heightAlong c g pool path = some (outgoing f' (b.last?.bind c.instruction?) e.kind).depth := by
  obtain ⟨hmem, rfl⟩ := Graph.mem_successors.mp he
  refine ⟨e :: path, .step hp hmem, ?_⟩
  have hind : g.indices e.source = b.indices := by rw [Graph.indices, hb]; rfl
  have hlast : g.lastInstruction? c e.source = b.last?.bind c.instruction? := by rw [Graph.lastInstruction?, hb]; rfl
  rw [heightAlong, hh, Option.bind_some, hind, ← depth_run, hrun, ← hlast, depth_outgoing]
  rfl

/-- A visit that fails leaves a path that cannot be executed, or two that do not meet. -/
theorem failed_visit (hl : g.Laid c) {flow : Flow} {id : Nat} {rest : List Nat} {err : AnalysisError}
    (hlen : flow.entries.length = g.blocks.size) (hr : Reached c g pool flow.entries)
    (h : visit c g pool flow id rest = .error err) : Obstructed c g pool ∨ Uneven c g pool := by
  unfold visit at h
  split at h
  · rename_i b f hb hf
    obtain ⟨path, hp, hh⟩ := hr id f hf
    split at h
    · rename_i e hrun
      have hnone : heightAfter c pool b.indices f.depth = none := by
        rw [← depth_run, runBlock_eq_error hrun]
        rfl
      exact .inl (obstructed_of_run hl hp hb hh hnone)
    · rename_i f' frames hrun
      split at h
      · rename_i e hspread
        refine .inr (uneven_of_spread (fun e he => ?_) hr (fun e he => ?_) hspread)
        · exact hlen ▸ hl.target (Graph.mem_successors.mp he).1
        · exact sent_path hp hh hb (runBlock_eq_ok hrun).1 he
      · cases h
  · cases h

/-! ## Any order of visits -/

/-- The result of visiting queued blocks in some order until there is none or a visit fails. -/
inductive Drained (c : Code) (g : Graph) (pool : Pool) : Flow → List Nat → Except AnalysisError Flow → Prop
  | done {flow : Flow} : Drained c g pool flow [] (.ok flow)
  | fail {flow : Flow} {queue : List Nat} {id : Nat} {err : AnalysisError} : id ∈ queue →
    visit c g pool flow id (queue.erase id) = .error err → Drained c g pool flow queue (.error err)
  | turn {flow flow' : Flow} {queue queue' : List Nat} {id : Nat} {r : Except AnalysisError Flow} : id ∈ queue →
    visit c g pool flow id (queue.erase id) = .ok (flow', queue') → Drained c g pool flow' queue' r →
    Drained c g pool flow queue r

/-- The worklist of `drain` takes the smallest block first. -/
theorem drained_drain (flow : Flow) (queue : List Nat) : Drained c g pool flow queue (drain c g pool flow queue) := by
  induction flow, queue using drain.induct c g pool with
  | case1 flow =>
    rw [drain_nil]
    exact .done
  | case2 flow id rest err hv =>
    rw [drain_cons, hv]
    exact .fail (List.mem_cons_self ..) (by rwa [List.erase_cons_head])
  | case3 flow id rest flow' queue' hv ih =>
    rw [drain_cons, hv]
    exact .turn (List.mem_cons_self ..) (by rwa [List.erase_cons_head]) ih

theorem Consistent.mono {flow : Flow} {queue queue' : List Nat} (hc : Consistent c g pool flow queue)
    (hsub : ∀ id ∈ queue, id ∈ queue') : Consistent c g pool flow queue' :=
  { hc with settled := fun hb hf => (hc.settled hb hf).imp_left (hsub _) }

section
variable (hl : g.Laid c)
include hl

theorem reached_visit {flow flow' : Flow} {id : Nat} {rest queue : List Nat}
    (hlen : flow.entries.length = g.blocks.size) (hr : Reached c g pool flow.entries)
    (hv : visit c g pool flow id rest = .ok (flow', queue)) : Reached c g pool flow'.entries := by
  rcases visit_eq_ok hv with ⟨rfl, -, -⟩ | ⟨b, f, f', hb, hf, hrun, hspread⟩
  · exact hr
  · obtain ⟨path, hp, hh⟩ := hr id f hf
    refine spread_induct (Q := fun id f => ∃ path, g.Path path id ∧ heightAlong c g pool path = some f.depth)
      ?_ (fun e he => ?_) hspread (fun e he => ?_) hr
    · intro id f₁ f₂ f₃ ch h₁ _ hm
      rwa [(Frame.depth_of_merge hm).2]
    · exact hlen ▸ hl.target (Graph.mem_successors.mp he).1
    · exact sent_path hp hh hb (runBlock_eq_ok hrun).1 he

theorem reached_initial : Reached c g pool (initial c g).entries := by
  intro id f hf
  rw [entry_initial hl] at hf
  split at hf
  · rename_i hid
    cases hf
    exact ⟨[], hid ▸ .start, rfl⟩
  · cases hf

/-- In whatever order the blocks are visited, the flow is consistent in the end, or it fails and there is a path
to blame. -/
theorem Drained.cases {flow : Flow} {queue : List Nat} {r : Except AnalysisError Flow}
    (hd : Drained c g pool flow queue r) (hc : Consistent c g pool flow queue) (hr : Reached c g pool flow.entries) :
    (∃ flow', r = .ok flow' ∧ Consistent c g pool flow' []) ∨
      (∃ err, r = .error err) ∧ (Obstructed c g pool ∨ Uneven c g pool) := by
  induction hd with
  | done => exact .inl ⟨_, rfl, hc⟩
  | fail _ hv => exact .inr ⟨⟨_, rfl⟩, failed_visit hl hc.entries hr hv⟩
  | @turn flow flow' queue queue' id r hid hv _ ih =>
    have hc' : Consistent c g pool flow (id :: queue.erase id) := hc.mono fun x hx => by
      by_cases hx' : x = id
      · exact List.mem_cons.mpr (.inl hx')
      · exact List.mem_cons_of_mem _ ((List.mem_erase_of_ne hx').mpr hx)
    exact ih (hc'.visit hl hv) (reached_visit hl hc.entries hr hv)

/-! ## A drained flow leaves no such path -/

theorem Consistent.heights {flow : Flow} (hc : Consistent c g pool flow []) {es : List Edge} {id : Nat}
    (hes : g.Path es id) : ∃ f, flow.entries.entry id = some f ∧ heightAlong c g pool es = some f.depth := by
  obtain ⟨f, p, hentry, hp, hcov⟩ := hc.entry_covers hl hes
  refine ⟨f, hentry, ?_⟩
  rw [← depth_along, hp, hcov.depth]
  rfl

theorem Consistent.not_uneven {flow : Flow} (hc : Consistent c g pool flow []) : ¬ Uneven c g pool := by
  rintro ⟨es, es', id, n, n', hes, hes', hn, hn', hne⟩
  obtain ⟨f, hf, hh⟩ := hc.heights hl hes
  obtain ⟨f', hf', hh'⟩ := hc.heights hl hes'
  rw [hf] at hf'
  cases hf'
  rw [hn] at hh
  rw [hn'] at hh'
  exact hne ((Option.some.inj hh).trans (Option.some.inj hh').symm)

theorem Consistent.not_obstructed {flow : Flow} (hc : Consistent c g pool flow []) : ¬ Obstructed c g pool := by
  rintro ⟨es, l, i, n, hes, hloc, hi, hn, hblocked⟩
  obtain ⟨b, hb, hmem⟩ := hl.mem_orderedLocations.mp hloc
  obtain ⟨f, p, hentry, hp, hcov⟩ := hc.entry_covers hl hes
  -- the whole block can be run from the entry, and so from where the path enters
  obtain ⟨f', hrun, -⟩ := ((hc.settled hb hentry).resolve_left List.not_mem_nil).sent
  obtain ⟨p', hrun', -⟩ := hcov.run hrun
  obtain ⟨post, hsplit, -⟩ := Block.indices_split hmem
  obtain ⟨h, hbody, rfl⟩ := Option.map_eq_some_iff.mp hi
  rw [hsplit] at hrun'
  obtain ⟨q, hq, hrest⟩ := Frame.run_append.mp hrun'
  obtain ⟨q', hx, -⟩ := (Frame.run_cons hbody).mp hrest
  have hat : heightAt c g pool es l = some q.depth := by
    rw [← depth_arriving, arriving_eq_ok.mpr ⟨p, hp, ?_⟩]
    · rfl
    · rw [Graph.before, hb]
      exact hq
  rw [hn] at hat
  cases hat
  have hheight := Frame.depth_execute pool h q
  rw [hx, Instruction.height_eq_none.mpr hblocked] at hheight
  cases hheight

theorem fails_iff {r : Except AnalysisError Flow}
    (hd : Drained c g pool (initial c g) (entryBlock? g).toList r) :
    (∃ err, r = .error err) ↔ Obstructed c g pool ∨ Uneven c g pool := by
  rw [entryBlock_eq hl] at hd
  rcases hd.cases hl (.initial hl) (reached_initial hl) with ⟨flow', rfl, hc⟩ | ⟨herr, hblame⟩
  · refine ⟨fun ⟨err, h⟩ => (by cases h), fun h => ?_⟩
    rcases h with h | h
    · exact absurd h (hc.not_obstructed hl)
    · exact absurd h (hc.not_uneven hl)
  · exact ⟨fun _ => hblame, fun _ => herr⟩

end

end

/-! ## Blocks without a path -/

section
variable {c c' : Code} {g : Graph} {pool : Pool} (hl : g.Laid c)
  (hsame : ∀ l ∈ g.orderedLocations, (∃ es, g.Path es l.block) → c'.instruction? l.index = c.instruction? l.index)

theorem heightAfter_congr : ∀ {is : List Nat} (n : Nat), (∀ i ∈ is, c'.instruction? i = c.instruction? i) →
    heightAfter c' pool is n = heightAfter c pool is n
  | [], n, _ => rfl
  | i :: is, n, h => by
    have ih : ∀ m, heightAfter c' pool is m = heightAfter c pool is m :=
      fun m => heightAfter_congr m fun j hj => h j (List.mem_cons_of_mem _ hj)
    rw [heightAfter, heightAfter, h i (List.mem_cons_self ..)]
    cases c.instruction? i with
    | none => exact ih n
    | some j => exact congrArg (Option.bind _) (funext ih)

include hl hsame

theorem instruction?_of_path {es : List Edge} {id : Nat} (hes : g.Path es id) {b : Block}
    (hb : g.blocks[id]? = some b) : ∀ i ∈ b.indices, c'.instruction? i = c.instruction? i :=
  fun i hi => hsame ⟨i, id⟩ (hl.mem_orderedLocations.mpr ⟨b, hb, hi⟩) ⟨es, hes⟩

theorem heightAlong_congr {es : List Edge} {id : Nat} (hes : g.Path es id) :
    heightAlong c' g pool es = heightAlong c g pool es := by
  induction hes with
  | start => rfl
  | @step es e hes he ih =>
    have hb := Array.getElem?_eq_getElem (hl.source he)
    have hinst := instruction?_of_path hl hsame hes hb
    have hocc := hl.occupied hb
    have hlast : g.lastInstruction? c' e.source = g.lastInstruction? c e.source := by
      rw [Graph.lastInstruction?, Graph.lastInstruction?, hb]
      simp only [Option.bind_some, Block.last?, if_pos hocc]
      exact hinst _ (Block.mem_indices.mpr ⟨by omega, by omega⟩)
    have hsent : heightSent c' g e = heightSent c g e := by
      funext n
      rw [heightSent, heightSent, hlast]
    have hafter : heightAfter c' pool (g.indices e.source) = heightAfter c pool (g.indices e.source) := by
      rw [Graph.indices, hb]
      exact funext fun n => heightAfter_congr n hinst
    rw [heightAlong, heightAlong, ih, hsent, hafter]

theorem obstructed_congr : Obstructed c' g pool ↔ Obstructed c g pool := by
  refine exists_congr fun es => exists_congr fun l => exists_congr fun i => exists_congr fun n =>
    and_congr_right fun hes => and_congr_right fun hloc => ?_
  obtain ⟨b, hb, hi⟩ := hl.mem_orderedLocations.mp hloc
  have hinst := instruction?_of_path hl hsame hes hb
  have hbefore : heightAfter c' pool (g.before l) = heightAfter c pool (g.before l) := by
    obtain ⟨post, hsplit, -⟩ := Block.indices_split hi
    rw [Graph.before, hb]
    exact funext fun n => heightAfter_congr n fun j hj => hinst j (hsplit ▸ List.mem_append_left _ hj)
  rw [hinst _ hi, heightAt, heightAt, heightAlong_congr hl hsame hes, hbefore]

theorem uneven_congr : Uneven c' g pool ↔ Uneven c g pool := by
  refine exists_congr fun es => exists_congr fun es' => exists_congr fun id => exists_congr fun n =>
    exists_congr fun n' => and_congr_right fun hes => and_congr_right fun hes' => ?_
  rw [heightAlong_congr hl hsame hes, heightAlong_congr hl hsame hes']

end

/-- **When the flow fails.** The constant flow fails iff some path comes to an instruction that cannot be executed
there, or two paths come to one block with different heights. It fails so in every order of visits, and does not
depend on instructions in blocks without a path. -/
theorem analyze_fails_iff {c : Code} {g : Graph} (hg : Graph.build c = .ok g) (pool : Pool) :
    ((∃ err, analyze c g pool = .error err) ↔ Obstructed c g pool ∨ Uneven c g pool) ∧
    (∀ r, Drained c g pool (initial c g) (entryBlock? g).toList r →
      ((∃ err, r = .error err) ↔ ∃ err, analyze c g pool = .error err)) ∧
    ∀ c', Graph.build c' = .ok g →
      (∀ l ∈ g.orderedLocations, (∃ es, g.Path es l.block) → c'.instruction? l.index = c.instruction? l.index) →
      ((∃ err, analyze c' g pool = .error err) ↔ ∃ err, analyze c g pool = .error err) := by
  have hl := Graph.laid_of_build hg
  have hiff : (∃ err, analyze c g pool = .error err) ↔ _ := fails_iff hl (drained_drain _ _)
  refine ⟨hiff, fun r hr => (fails_iff hl hr).trans hiff.symm, fun c' hg' hsame => ?_⟩
  have hiff' : (∃ err, analyze c' g pool = .error err) ↔ _ := fails_iff (Graph.laid_of_build hg') (drained_drain _ _)
  rw [obstructed_congr hl hsame, uneven_congr hl hsame] at hiff'
  exact hiff'.trans hiff.symm

end Flow

namespace Sample

def lopsided : Code where
  body := #[⟨0, .load .int 0⟩, ⟨1, .ifZero .eq 5⟩, ⟨4, .nullConst⟩, ⟨5, .leave none⟩]

def lopsidedGraph : Graph where
  blocks := #[⟨0, 0, 2, false⟩, ⟨1, 2, 3, false⟩, ⟨2, 3, 4, false⟩]
  edges := [⟨0, 2, .branch⟩, ⟨0, 1, .fallThrough⟩, ⟨1, 2, .fallThrough⟩]

def castAlone : Code where
  body := #[⟨0, .checkCast 1⟩, ⟨3, .leave none⟩]

end Sample

theorem Flow.lopsided_fails : Graph.build Sample.lopsided = .ok Sample.lopsidedGraph ∧
    Uneven Sample.lopsided Sample.lopsidedGraph Sample.pool ∧
    ∃ err, analyze Sample.lopsided Sample.lopsidedGraph Sample.pool = .error err := by
  have hg : Graph.build Sample.lopsided = .ok Sample.lopsidedGraph := by cbv
  have huneven : Uneven Sample.lopsided Sample.lopsidedGraph Sample.pool :=
    ⟨[⟨0, 2, .branch⟩], [⟨1, 2, .fallThrough⟩, ⟨0, 1, .fallThrough⟩], 2, 0, 1, .step .start (by decide),
      .step (.step .start (by decide)) (by decide), by decide, by decide, by decide⟩
  exact ⟨hg, huneven, (analyze_fails_iff hg Sample.pool).1.mpr (.inr huneven)⟩

/-- A cast pops a word and pushes it again, but the flow does not fail where there is none. -/
theorem Flow.cast_of_empty_stack : ∃ g flow, Sample.castAlone.Ascending ∧ Graph.build Sample.castAlone = .ok g ∧
    analyze Sample.castAlone g Sample.pool = .ok flow ∧ g.Path [] 0 ∧ ⟨0, 0⟩ ∈ g.orderedLocations ∧
    heightAt Sample.castAlone g Sample.pool [] ⟨0, 0⟩ = some 0 ∧
    ∃ i e, Sample.castAlone.instruction? 0 = some i ∧ i.effect Sample.pool = .ok e ∧ 0 < e.net.1 := by
  have hg : Graph.build Sample.castAlone = .ok (Sample.straight 2) := by cbv
  have hf : (analyze Sample.castAlone (Sample.straight 2) Sample.pool).toOption.isSome = true := by cbv
  cases h : analyze Sample.castAlone (Sample.straight 2) Sample.pool with
  | error err => rw [h] at hf; cases hf
  | ok flow =>
    exact ⟨_, flow, by decide, hg, h, .start, by decide, by decide, .checkCast 1, .identity, rfl, rfl, by decide⟩

end SinkCheck
