import SinkCheck.Assembler
import SinkCheck.Proofs.ControlFlow
import SinkCheck.Proofs.RelatedFrames

/-!
# The layout of assembled code

Positions are computed before targets are filled in. A target never changes the length of an instruction, so
the positions are those of the finished code, and every label stands for the boundary at which it was last
bound.
-/

namespace SinkCheck

/-! ## Targets and lengths -/

namespace Instruction

def untargeted : Instruction → Instruction
  | .ifZero c _ => .ifZero c 0
  | .ifCompare kind c _ => .ifCompare kind c 0
  | .ifNull _ => .ifNull 0
  | .ifNonNull _ => .ifNonNull 0
  | .goto _ => .goto 0
  | .jsr _ => .jsr 0
  | .tableSwitch _ low targets => .tableSwitch 0 low (targets.map fun _ => 0)
  | .lookupSwitch _ pairs => .lookupSwitch 0 (pairs.map fun pair => (pair.1, 0))
  | i => i

theorem encodedLength_untargeted (i : Instruction) (p : Nat) : i.untargeted.encodedLength p = i.encodedLength p := by
  cases i <;> simp [untargeted, encodedLength]

theorem encodedLength_pos (i : Instruction) (p : Nat) : 0 < i.encodedLength p := by
  cases i with
  | invoke kind index => cases kind <;> simp [encodedLength]
  | _ =>
    simp only [encodedLength]
    grind

end Instruction

namespace Assembler

theorem retarget_eq_ok {i i' : Instruction} {ts : List Nat} (h : retarget i ts = .ok i') :
    i'.untargeted = i.untargeted ∧ (ts.length = 1 ∨ i.isSwitch → i'.branchTargets = ts) := by
  cases ts with
  | nil => cases i <;> cases h
  | cons t ts =>
    cases i with
    | ifZero _ _ | ifCompare _ _ _ | ifNull _ | ifNonNull _ | goto _ | jsr _ =>
      cases h
      refine ⟨rfl, ?_⟩
      intro hone
      simpa [Instruction.isSwitch, Instruction.branchTargets] using hone
    | tableSwitch fallback low old =>
      simp only [retarget] at h
      split at h
      · rename_i hlen
        cases h
        exact ⟨by simp [Instruction.untargeted, hlen], fun _ => rfl⟩
      · cases h
    | lookupSwitch fallback pairs =>
      simp only [retarget] at h
      split at h
      · rename_i hlen
        cases h
        have hkeys : ((pairs.map Prod.fst).zip ts).map Prod.fst = pairs.map Prod.fst := List.map_fst_zip (by simp [hlen])
        have htargets : ((pairs.map Prod.fst).zip ts).map Prod.snd = ts := List.map_snd_zip (by simp [hlen])
        have hforget : ∀ ps : List (Int × Nat),
            (ps.map fun pair => (pair.1, 0)) = (ps.map Prod.fst).map fun key => (key, 0) := by simp
        refine ⟨?_, fun _ => ?_⟩
        · simp only [Instruction.untargeted, hforget, hkeys]
        · simp only [Instruction.branchTargets, htargets]
      · cases h
    | _ => cases h

/-! ## Positions -/

theorem length_layout (is : List Instruction) (p : Nat) : (layout p is).length = is.length + 1 := by
  induction is generalizing p with
  | nil => rfl
  | cons i is ih => simp [layout, ih]

theorem layout_zero (is : List Instruction) (p : Nat) : (layout p is)[0]? = some p := by
  cases is <;> rfl

theorem layout_succ {is : List Instruction} {p q k : Nat} {i : Instruction} (hi : is[k]? = some i)
    (hq : (layout p is)[k]? = some q) : (layout p is)[k + 1]? = some (q + i.encodedLength q) := by
  induction is generalizing p k with
  | nil => simp at hi
  | cons j is ih =>
    cases k with
    | zero =>
      simp only [List.getElem?_cons_zero, Option.some.injEq, layout] at hi hq
      subst hi hq
      simp [layout, layout_zero]
    | succ k =>
      simp only [List.getElem?_cons_succ, layout] at hi hq ⊢
      exact ih hi hq

theorem layout_congr {is is' : List Instruction}
    (h : List.Forall₂ (fun i i' : Instruction => i'.untargeted = i.untargeted) is is') (p : Nat) :
    layout p is' = layout p is := by
  induction h generalizing p with
  | nil => rfl
  | cons hi _ ih =>
    rename_i i i' _ _ _
    have hlen : i'.encodedLength p = i.encodedLength p := by
      rw [← Instruction.encodedLength_untargeted, hi, Instruction.encodedLength_untargeted]
    simp [layout, hlen, ih]

end Assembler

/-! ## Contiguous code -/

namespace Code

def length (c : Code) : Nat :=
  (c.body.back?.map fun h => h.position + h.instruction.encodedLength h.position).getD 0

/-- Where an instruction starts, and for the number of instructions where the code ends. -/
def boundary? (c : Code) (k : Nat) : Option Nat :=
  if k = c.size then some c.length else c.position? k

structure Contiguous (c : Code) : Prop where
  first : ∀ h, c.body[0]? = some h → h.position = 0
  next : ∀ k h h', c.body[k]? = some h → c.body[k + 1]? = some h' →
    h'.position = h.position + h.instruction.encodedLength h.position

section
variable {c : Code} (hc : c.Contiguous)
include hc

theorem Contiguous.ascending : c.Ascending := by
  rw [Ascending, ← List.isChain_iff_pairwise, List.isChain_iff_getElem]
  intro k hk
  have hk : k + 1 < c.body.size := by simpa using hk
  have hnext := hc.next k _ _ (Array.getElem?_eq_getElem (by omega)) (Array.getElem?_eq_getElem hk)
  have hpos := c.body[k].instruction.encodedLength_pos c.body[k].position
  simp only [Array.getElem_toList]
  omega

theorem Contiguous.position_lt_length {k p : Nat} (hp : c.position? k = some p) : p < c.length := by
  obtain ⟨h, hk, rfl⟩ := position?_eq_some.mp hp
  obtain ⟨hlt, -⟩ := Array.getElem?_eq_some_iff.mp hk
  obtain ⟨last, hlast⟩ : ∃ last, c.body[c.body.size - 1]? = some last := ⟨_, Array.getElem?_eq_getElem (by omega)⟩
  have hend : c.position? (c.body.size - 1) = some last.position := position?_eq_some.mpr ⟨last, hlast, rfl⟩
  have hle : h.position ≤ last.position := by
    by_cases heq : k = c.body.size - 1
    · rw [heq, hend] at hp
      exact Nat.le_of_eq (Option.some.inj hp).symm
    · exact Nat.le_of_lt (hc.ascending.position_lt (by omega) hp hend)
  have hpos := last.instruction.encodedLength_pos last.position
  rw [length, Array.back?_eq_getElem?, hlast]
  simp only [Option.map_some, Option.getD_some]
  omega

theorem Contiguous.indexOf?_length : c.indexOf? c.length = none := by
  cases h : c.indexOf? c.length with
  | none => rfl
  | some k => exact absurd (hc.position_lt_length (position?_of_indexOf? h)) (Nat.lt_irrefl _)

/-- Every boundary but the last is the start of an instruction. -/
theorem Contiguous.boundary {k : Nat} (hk : k ≤ c.size) : ∃ p, c.boundary? k = some p ∧
    (k < c.size ∧ c.indexOf? p = some k ∨ k = c.size ∧ p = c.length ∧ c.indexOf? p = none) := by
  rcases Nat.lt_or_eq_of_le hk with hlt | heq
  · have hp : c.position? k = some c.body[k].position := position?_eq_some.mpr ⟨_, Array.getElem?_eq_getElem hlt, rfl⟩
    refine ⟨_, ?_, .inl ⟨hlt, hc.ascending.indexOf?_eq_some.mpr hp⟩⟩
    rw [boundary?, if_neg (Nat.ne_of_lt hlt), hp]
  · exact ⟨c.length, if_pos heq, .inr ⟨heq, rfl, hc.indexOf?_length⟩⟩

end

end Code

namespace Assembler

def place (is : List Instruction) : Array Placed :=
  ((layout 0 is).zipWith Placed.mk is).toArray

theorem size_place (is : List Instruction) : (place is).size = is.length := by
  simp [place, length_layout]

theorem place_getElem? {is : List Instruction} {k : Nat} {h : Placed} : (place is)[k]? = some h ↔
    (layout 0 is)[k]? = some h.position ∧ is[k]? = some h.instruction := by
  obtain ⟨position, i⟩ := h
  simp only [place, List.getElem?_toArray, List.getElem?_zipWith]
  cases (layout 0 is)[k]? <;> cases is[k]? <;> simp

section
variable {c : Code} {is : List Instruction} (hb : c.body = place is)
include hb

theorem contiguous_of_place : c.Contiguous where
  first := by
    intro h h0
    rw [hb, place_getElem?, layout_zero] at h0
    exact (Option.some.inj h0.1).symm
  next := by
    intro k h h' hk hk'
    rw [hb, place_getElem?] at hk hk'
    rw [layout_succ hk.2 hk.1] at hk'
    exact (Option.some.inj hk'.1).symm

theorem size_of_place : c.size = is.length := by
  rw [Code.size, hb, size_place]

theorem placed_of_lt {k : Nat} (hk : k < is.length) :
    ∃ h, c.body[k]? = some h ∧ (layout 0 is)[k]? = some h.position ∧ is[k]? = some h.instruction := by
  have hlt : k < c.body.size := by rwa [hb, size_place]
  obtain ⟨h, hh⟩ : ∃ h, c.body[k]? = some h := ⟨_, Array.getElem?_eq_getElem hlt⟩
  refine ⟨h, hh, ?_⟩
  rwa [hb, place_getElem?] at hh

theorem instruction?_of_place (k : Nat) : c.instruction? k = is[k]? := by
  by_cases hk : k < is.length
  · obtain ⟨h, hh, -, hi⟩ := placed_of_lt hb hk
    rw [Code.instruction?, hh, hi]
    rfl
  · have hnone : c.body[k]? = none := Array.getElem?_eq_none (by rw [hb, size_place]; omega)
    rw [Code.instruction?, hnone, List.getElem?_eq_none (by omega)]
    rfl

theorem boundary?_of_place (k : Nat) : c.boundary? k = (layout 0 is)[k]? := by
  have hsize := size_of_place hb
  unfold Code.boundary?
  by_cases hk : k = c.size
  · rw [if_pos hk, Code.length, Array.back?_eq_getElem?]
    by_cases hempty : is.length = 0
    · simp [List.length_eq_zero_iff.mp hempty, hb, place, layout, hk, hsize]
    · -- the code ends where its last instruction does
      obtain ⟨h, hh, hp, hi⟩ := placed_of_lt hb (k := is.length - 1) (by omega)
      have hend := layout_succ hi hp
      have hk' : is.length - 1 + 1 = k := by omega
      have hlast : c.body.size - 1 = is.length - 1 := by rw [hb, size_place]
      rw [hk'] at hend
      rw [hlast, hh, hend]
      rfl
  · rw [if_neg hk, Code.position?]
    by_cases hlt : k < is.length
    · obtain ⟨h, hh, hp, -⟩ := placed_of_lt hb hlt
      rw [hh, hp]
      rfl
    · have hnone : c.body[k]? = none := Array.getElem?_eq_none (by rw [hb, size_place]; omega)
      rw [hnone, List.getElem?_eq_none (by rw [length_layout]; omega)]
      rfl

end

end Assembler

/-! ## Scripts -/

namespace Step

def emitted? : Step → Option Emitted
  | .emit i => some ⟨i, none⟩
  | .branch i targets => some ⟨i, some targets⟩
  | _ => none

def handler? : Step → Option (Label × Label × Label × Option String)
  | .handler start stop entry catchType => some (start, stop, entry, catchType)
  | _ => none

def allocated : Step → Nat
  | .labels count => count
  | _ => 0

/-- The step uses no label but the first `n`, and only a switch takes other than one target. -/
def Allowed (n : Nat) : Step → Prop
  | .bind l => l < n
  | .branch i targets => (targets.length = 1 ∨ i.isSwitch) ∧ ∀ l ∈ targets, l < n
  | .handler start stop entry _ => start < n ∧ stop < n ∧ entry < n
  | _ => True

end Step

namespace Assembler

def emissions (script : List Step) : Nat :=
  (script.filterMap Step.emitted?).length

def allocations (script : List Step) : Nat :=
  (script.map Step.allocated).sum

def Allowed : Nat → List Step → Prop
  | _, [] => True
  | n, s :: script => s.Allowed n ∧ Allowed (n + s.allocated) script

/-- The last binding of the label stands behind `k` instructions. -/
def BoundAt (script : List Step) (l : Label) (k : Nat) : Prop :=
  ∃ before after, script = before ++ .bind l :: after ∧ .bind l ∉ after ∧ emissions before = k

theorem allowed_append {n : Nat} {script script' : List Step} : Allowed n (script ++ script') ↔
    Allowed n script ∧ Allowed (n + allocations script) script' := by
  induction script generalizing n with
  | nil => simp [Allowed, allocations]
  | cons s script ih => simp [Allowed, ih, allocations, and_assoc, Nat.add_assoc]

theorem boundAt_snoc {script : List Step} {s : Step} {l : Label} {k : Nat} : BoundAt (script ++ [s]) l k ↔
    s = .bind l ∧ emissions script = k ∨ s ≠ .bind l ∧ BoundAt script l k := by
  constructor
  · rintro ⟨before, after, heq, hlast, rfl⟩
    rcases List.eq_nil_or_concat after with rfl | ⟨after, s', rfl⟩
    · obtain ⟨rfl, hs⟩ := List.append_inj' heq rfl
      exact .inl ⟨List.singleton_inj.mp hs, rfl⟩
    · rw [List.concat_eq_append] at heq hlast
      obtain ⟨hscript, hs⟩ := List.append_inj' (heq.trans (List.append_assoc before (.bind l :: after) [s']).symm) rfl
      cases List.singleton_inj.mp hs
      refine .inr ⟨?_, before, after, hscript, ?_, rfl⟩
      · rintro rfl
        simp at hlast
      · intro hmem
        simp [hmem] at hlast
  · rintro (⟨rfl, rfl⟩ | ⟨hne, before, after, rfl, hlast, rfl⟩)
    · exact ⟨script, [], rfl, by simp, rfl⟩
    · exact ⟨before, after ++ [s], by simp, by simp [hlast, hne.symm], rfl⟩

theorem run_snoc (script : List Step) (s : Step) : run (script ++ [s]) = (run script).step s := by
  simp [run]

theorem emitted_run (script : List Step) : (run script).emitted.toList = script.filterMap Step.emitted? := by
  induction script using List.reverseRecOn with
  | nil => rfl
  | append_singleton script s ih =>
    rw [run_snoc, List.filterMap_append, ← ih]
    cases s <;> simp [step, Step.emitted?]

theorem handlers_run (script : List Step) : (run script).handlers.toList = script.filterMap Step.handler? := by
  induction script using List.reverseRecOn with
  | nil => rfl
  | append_singleton script s ih =>
    rw [run_snoc, List.filterMap_append, ← ih]
    cases s <;> simp [step, Step.handler?]

theorem size_labels_run (script : List Step) : (run script).labels.size = allocations script := by
  induction script using List.reverseRecOn with
  | nil => rfl
  | append_singleton script s ih =>
    rw [run_snoc, allocations, List.map_append, List.sum_append, ← allocations, ← ih]
    cases s <;> simp [step, Step.allocated]

theorem labels_run {script : List Step} (h : Allowed 0 script) (l : Label) (k : Nat) :
    (run script).labels[l]? = some (some k) ↔ BoundAt script l k := by
  induction script using List.reverseRecOn with
  | nil => simp [run, BoundAt]
  | append_singleton script s ih =>
    obtain ⟨hscript, hs⟩ := allowed_append.mp h
    rw [run_snoc, boundAt_snoc, ← ih hscript]
    cases s with
    | bind l' =>
      have hlt : l' < (run script).labels.size := by
        rw [size_labels_run]
        simpa [Allowed, Step.Allowed] using hs
      have hsize : (run script).emitted.size = emissions script := by
        rw [emissions, ← emitted_run, Array.length_toList]
      by_cases hl : l' = l
      · subst hl
        simp [step, hlt, hsize]
      · simp [step, hl]
    | labels count =>
      -- the new labels are not bound yet
      by_cases hl : l < (run script).labels.size
      · simp [step, Array.getElem?_append, hl]
      · simp [step, Array.getElem?_append, Array.getElem?_replicate, hl]
    | _ => simp [step]

theorem emitted_of_split {script before after : List Step} {s : Step} {e : Emitted}
    (hscript : script = before ++ s :: after) (he : s.emitted? = some e) :
    (run script).emitted.toList[emissions before]? = some e := by
  simp [emitted_run, hscript, emissions, he]

theorem boundAt_le {script : List Step} {l : Label} {k : Nat} (h : BoundAt script l k) : k ≤ emissions script := by
  obtain ⟨before, after, rfl, -, rfl⟩ := h
  simp [emissions]

end Assembler

/-! ## Building -/

theorem forall₂_of_mapM {ε α β : Type} {f : α → Except ε β} {l : List α} {r : List β} (h : l.mapM f = .ok r) :
    List.Forall₂ (fun a b => f a = .ok b) l r := by
  induction l generalizing r with
  | nil =>
    cases h
    exact .nil
  | cons a l ih =>
    rw [List.mapM_cons] at h
    obtain ⟨b, ha, h⟩ := Except.bind_eq_ok.mp h
    obtain ⟨bs, hl, h⟩ := Except.bind_eq_ok.mp h
    cases h
    exact .cons ha (ih hl)

namespace Assembler

section
variable {a : Assembler} {ps : List Nat}

theorem resolve_eq_ok {l : Label} {p : Nat} :
    a.resolve ps l = .ok p ↔ ∃ k, a.labels[l]? = some (some k) ∧ ps[k]? = some p := by
  unfold resolve
  cases h : a.labels[l]? with
  | none => simp
  | some k? =>
    cases k? with
    | none => simp
    | some k => cases hk : ps[k]? <;> simp [hk]

theorem patch_eq_ok {e : Emitted} {i : Instruction} (h : a.patch ps e = .ok i) :
    e.targets = none ∧ i = e.instruction ∨ ∃ ls ts, e.targets = some ls ∧
      List.Forall₂ (fun l p => a.resolve ps l = .ok p) ls ts ∧ retarget e.instruction ts = .ok i := by
  unfold patch at h
  split at h
  · rename_i ht
    cases h
    exact .inl ⟨ht, rfl⟩
  · rename_i ls ht
    obtain ⟨ts, hls, hr⟩ := Except.bind_eq_ok.mp h
    exact .inr ⟨ls, ts, ht, forall₂_of_mapM hls, hr⟩

theorem untargeted_of_patch {e : Emitted} {i : Instruction} (h : a.patch ps e = .ok i) :
    i.untargeted = e.instruction.untargeted := by
  rcases patch_eq_ok h with ⟨-, rfl⟩ | ⟨ls, ts, -, -, hr⟩
  · rfl
  · exact (retarget_eq_ok hr).1

theorem placeHandler_eq_ok {start stop entry : Label} {catchType : Option String} {h : Handler}
    (hp : a.placeHandler ps (start, stop, entry, catchType) = .ok h) :
    a.resolve ps start = .ok h.start ∧ a.resolve ps stop = .ok h.stop ∧ a.resolve ps entry = .ok h.entry ∧
      h.catchType = catchType := by
  unfold placeHandler at hp
  obtain ⟨p, hstart, hp⟩ := Except.bind_eq_ok.mp hp
  obtain ⟨q, hstop, hp⟩ := Except.bind_eq_ok.mp hp
  obtain ⟨r, hentry, hp⟩ := Except.bind_eq_ok.mp hp
  cases hp
  exact ⟨hstart, hstop, hentry, rfl⟩

theorem positions_eq {is : List Instruction}
    (h : List.Forall₂ (fun e i => a.patch ps e = .ok i) a.emitted.toList is) : a.positions = layout 0 is := by
  rw [positions]
  refine (layout_congr ?_ 0).symm
  rw [List.forall₂_map_left_iff]
  exact h.imp fun _ _ => untargeted_of_patch

theorem build_eq_ok {code : Code} (h : a.build = .ok code) : ∃ is,
    List.Forall₂ (fun e i => a.patch a.positions e = .ok i) a.emitted.toList is ∧
    List.Forall₂ (fun x h => a.placeHandler a.positions x = .ok h) a.handlers.toList code.handlers ∧
    code.body = place is := by
  unfold build at h
  obtain ⟨is, his, h⟩ := Except.bind_eq_ok.mp h
  obtain ⟨hs, hhs, h⟩ := Except.bind_eq_ok.mp h
  cases h
  have hpatch := forall₂_of_mapM his
  refine ⟨is, hpatch, forall₂_of_mapM hhs, ?_⟩
  rw [place, ← positions_eq hpatch]

end

/-! ## Assembled code -/

def Marks (script : List Step) (code : Code) (l : Label) (p : Nat) : Prop :=
  ∃ k, BoundAt script l k ∧ code.boundary? k = some p

/-- What the code of a script looks like: the instructions one behind the other, unchanged but for the targets
that were attached to them, with every label at the boundary it marks. -/
structure Assembled (script : List Step) (code : Code) : Prop where
  size : code.size = emissions script
  contiguous : code.Contiguous
  ascending : code.Ascending
  below : ∀ k p, code.position? k = some p → p < code.length
  emitted : ∀ before i after, script = before ++ .emit i :: after → code.instruction? (emissions before) = some i
  targeted : ∀ before i ls after, script = before ++ .branch i ls :: after →
    ∃ i', code.instruction? (emissions before) = some i' ∧ i'.untargeted = i.untargeted ∧
      List.Forall₂ (Marks script code) ls i'.branchTargets
  handlers : List.Forall₂ (fun (start, stop, entry, catchType) h => Marks script code start h.start ∧
      Marks script code stop h.stop ∧ Marks script code entry h.entry ∧ h.catchType = catchType)
    (script.filterMap Step.handler?) code.handlers
  labels : ∀ l k, BoundAt script l k → ∃ p, code.boundary? k = some p ∧
    (run script).resolve (run script).positions l = .ok p ∧
    (k < code.size ∧ code.indexOf? p = some k ∨ k = code.size ∧ p = code.length ∧ code.indexOf? p = none)

section
variable {script : List Step} {code : Code} {is : List Instruction} (hbody : code.body = place is)
include hbody

theorem resolve_eq_ok_iff_marks (hw : Allowed 0 script) (hps : (run script).positions = layout 0 is) {l : Label}
    {p : Nat} : (run script).resolve (run script).positions l = .ok p ↔ Marks script code l p := by
  simp only [resolve_eq_ok, Marks, labels_run hw, boundary?_of_place hbody, hps]

theorem patched_of_split {ps : List Nat}
    (hpatch : List.Forall₂ (fun e i => (run script).patch ps e = .ok i) (run script).emitted.toList is)
    {before after : List Step} {s : Step} {e : Emitted} (hscript : script = before ++ s :: after)
    (he : s.emitted? = some e) :
    ∃ i, code.instruction? (emissions before) = some i ∧ (run script).patch ps e = .ok i := by
  have hrel := rel_getElem? hpatch (emissions before)
  rw [emitted_of_split hscript he] at hrel
  rw [instruction?_of_place hbody]
  cases hi : is[emissions before]? with
  | none => rw [hi] at hrel; cases hrel
  | some i =>
    rw [hi] at hrel
    cases hrel with
    | some hp => exact ⟨i, rfl, hp⟩

end

theorem targets_allowed {script before after : List Step} {i : Instruction} {ls : List Label} (hw : Allowed 0 script)
    (hscript : script = before ++ .branch i ls :: after) : ls.length = 1 ∨ i.isSwitch := by
  rw [hscript, allowed_append] at hw
  exact hw.2.1.1

/-- **Assembled code is laid out as it reads.** Every instruction stands where the one before it ends, with its
final targets in place. Plain instructions are as they were emitted, the targets of a branch or switch and the
bounds of a handler are the positions of their labels, and a label leads back to the instruction it was bound to,
or to none if it was bound at the end. -/
theorem assembled_of_assemble {script : List Step} {code : Code} (hw : Allowed 0 script)
    (h : assemble script = .ok code) : Assembled script code := by
  obtain ⟨is, hpatch, hhandlers, hbody⟩ := build_eq_ok h
  have hlaid := contiguous_of_place hbody
  have hmarks : ∀ {l p}, (run script).resolve (run script).positions l = .ok p ↔ Marks script code l p :=
    resolve_eq_ok_iff_marks hbody hw (positions_eq hpatch)
  have hsize : code.size = emissions script := by
    rw [size_of_place hbody, ← hpatch.length_eq, emitted_run, emissions]
  refine ⟨hsize, hlaid, hlaid.ascending, fun _ _ => hlaid.position_lt_length, ?_, ?_, ?_, ?_⟩
  · intro before i after hscript
    obtain ⟨i', hi', hp⟩ := patched_of_split hbody hpatch hscript rfl
    rcases patch_eq_ok hp with ⟨-, rfl⟩ | ⟨ls, ts, hls, -⟩
    · exact hi'
    · cases hls
  · intro before i ls after hscript
    obtain ⟨i', hi', hp⟩ := patched_of_split hbody hpatch hscript rfl
    rcases patch_eq_ok hp with ⟨hls, -⟩ | ⟨ls', ts, hls, hts, hr⟩
    · cases hls
    · cases hls
      obtain ⟨hsame, htargets⟩ := retarget_eq_ok hr
      refine ⟨i', hi', hsame, ?_⟩
      rw [htargets (hts.length_eq ▸ targets_allowed hw hscript)]
      exact hts.imp fun _ _ => hmarks.mp
  · rw [← handlers_run]
    refine hhandlers.imp ?_
    rintro ⟨start, stop, entry, catchType⟩ h hh
    obtain ⟨hstart, hstop, hentry, hcatch⟩ := placeHandler_eq_ok hh
    exact ⟨hmarks.mp hstart, hmarks.mp hstop, hmarks.mp hentry, hcatch⟩
  · intro l k hk
    obtain ⟨p, hp, hcases⟩ := hlaid.boundary (hsize ▸ boundAt_le hk)
    exact ⟨p, hp, hmarks.mpr ⟨k, hk, hp⟩, hcases⟩

end Assembler

namespace Sample

/-- A switch and a jump to labels that are bound behind them. Label 0 is bound twice, label 2 at the end. -/
def dispatchScript : List Step :=
  [.labels 3, .bind 0, .emit (.load .int 0), .branch (.lookupSwitch 0 [(1, 0), (2, 0)]) [0, 1, 0], .bind 1,
    .emit (.intConst 1000), .emit (.store .int 1), .branch (.goto 0) [0], .bind 0, .emit (.leave none), .bind 2,
    .handler 1 2 0 none]

def dispatchCode : Code where
  body := #[⟨0, .load .int 0⟩, ⟨1, .lookupSwitch 35 [(1, 28), (2, 35)]⟩, ⟨28, .intConst 1000⟩, ⟨31, .store .int 1⟩,
    ⟨32, .goto 35⟩, ⟨35, .leave none⟩]
  handlers := [⟨28, 36, 35, none⟩]

end Sample

theorem Assembler.assembled_dispatch : Allowed 0 Sample.dispatchScript ∧
    assemble Sample.dispatchScript = .ok Sample.dispatchCode ∧
    Assembled Sample.dispatchScript Sample.dispatchCode := by
  have hw : Allowed 0 Sample.dispatchScript := by
    simp [Sample.dispatchScript, Allowed, Step.Allowed, Step.allocated, Instruction.isSwitch]
  have h : assemble Sample.dispatchScript = .ok Sample.dispatchCode := by decide
  exact ⟨hw, h, assembled_of_assemble hw h⟩

end SinkCheck
