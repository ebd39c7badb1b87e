import SinkCheck.Constant
import SinkCheck.Graph

/-!
# Constant flow

The constants before every instruction, by a worklist over blocks. Each round either reaches a new
block, or turns a known cell of an entry frame into an unknown one, or shortens the worklist, so the
worklist always drains.
-/

namespace SinkCheck

/-! ## Known cells -/

namespace Constant

/-- A join keeps the known cells of the first list, less at least one if it changes the list. -/
theorem countP_zipWith_join (a b : List Constant) (h : a.length ≤ b.length) :
    (List.zipWith join a b).countP isKnown + (if List.zipWith join a b = a then 0 else 1) ≤
      a.countP isKnown := by
  induction a generalizing b with
  | nil => simp
  | cons x a ih =>
    obtain _ | ⟨y, b⟩ := b
    · simp at h
    · have hab : a.length ≤ b.length := by simpa using h
      have := ih b hab
      by_cases hxy : join x y = x
      · simp only [List.zipWith_cons_cons, hxy, List.countP_cons, List.cons.injEq, true_and]
        omega
      · have hx : isKnown x = true := by
          cases x with
          | unknown => cases y <;> simp [join] at hxy
          | _ => rfl
        have hj : isKnown (join x y) = false := by
          unfold join at hxy ⊢
          split
          · rename_i he; simp [he] at hxy
          · rfl
        simp only [List.zipWith_cons_cons, List.countP_cons, hx, hj, List.cons.injEq, hxy, false_and]
        split at this <;> simp <;> omega

end Constant

namespace Frame

def known (f : Frame Constant) : Nat :=
  f.stack.countP Constant.isKnown + f.locals.countP Constant.isKnown

theorem countP_pad (n : Nat) (cells : List Constant) :
    (pad n cells).countP Constant.isKnown = cells.countP Constant.isKnown := by
  simp [pad, List.countP_append, List.countP_replicate, default, Constant.isKnown]

/-- Merging keeps the known cells, less at least one if it reports a change. -/
theorem known_merge {f g f' : Frame Constant} {changed : Bool}
    (h : f.merge Constant.join g = .ok (f', changed)) : f'.known + changed.toNat ≤ f.known := by
  unfold merge at h
  split at h
  · rename_i hs
    cases h
    have h1 := Constant.countP_zipWith_join f.stack g.stack (Nat.le_of_eq hs)
    have h2 := Constant.countP_zipWith_join (pad (max f.locals.length g.locals.length) f.locals)
      (pad (max f.locals.length g.locals.length) g.locals) (by simp only [length_pad]; omega)
    rw [countP_pad] at h2
    simp only [known]
    split at h1 <;> split at h2
    · simp_all
    all_goals exact Nat.le_trans (Nat.add_le_add_left (Bool.toNat_le _) _) (by omega)
  · cases h

end Frame

/-! ## Entry frames -/

/-- The frame on entry of each block that was reached. -/
abbrev Entries := List (Option (Frame Constant))

namespace Entries

def unseen (es : Entries) : Nat :=
  es.countP Option.isNone

def known (es : Entries) : Nat :=
  es.foldr (fun e n => (e.map Frame.known).getD 0 + n) 0

/-- Joins a frame into the entry of a block, and says whether that changed the entry. -/
def propagate (es : Entries) (target : Nat) (f : Frame Constant) :
    Except AnalysisError (Entries × Bool) :=
  match es[target]? with
  | some (some entry) =>
    match entry.merge Constant.join f with
    | .ok (entry', changed) => .ok (es.set target (some entry'), changed)
    | .error e => .error e
  | some none => .ok (es.set target (some f), true)
  | none => .ok (es, false)

theorem unseen_set (es : Entries) (i : Nat) (e : Option (Frame Constant)) (f : Frame Constant)
    (h : es[i]? = some e) : unseen (es.set i (some f)) + e.isNone.toNat = unseen es := by
  induction es generalizing i with
  | nil => simp at h
  | cons x es ih =>
    cases i with
    | zero =>
      simp only [List.getElem?_cons_zero, Option.some.injEq] at h
      subst h
      cases x <;> simp [unseen]
    | succ i =>
      have := ih i (by simpa using h)
      simp only [unseen, List.set_cons_succ, List.countP_cons] at this ⊢
      omega

theorem known_set (es : Entries) (i : Nat) (e f : Frame Constant) (h : es[i]? = some (some e)) :
    known (es.set i (some f)) + e.known = known es + f.known := by
  induction es generalizing i with
  | nil => simp at h
  | cons x es ih =>
    cases i with
    | zero =>
      simp only [List.getElem?_cons_zero, Option.some.injEq] at h
      subst h
      simp [known]; omega
    | succ i =>
      have := ih i (by simpa using h)
      simp only [known, List.set_cons_succ, List.foldr_cons] at this ⊢
      omega

/-- Fewer blocks unseen, or as many and fewer cells known. -/
def Below (es fs : Entries) : Prop :=
  unseen es < unseen fs ∨ unseen es = unseen fs ∧ known es < known fs

theorem propagate_cases {es es' : Entries} {t : Nat} {f : Frame Constant} {changed : Bool}
    (h : es.propagate t f = .ok (es', changed)) :
    Below es' es ∨ changed = false ∧ unseen es' = unseen es ∧ known es' ≤ known es := by
  unfold propagate at h
  split at h
  · rename_i entry hg
    split at h
    · rename_i entry' changed' hm
      cases h
      have hk := Frame.known_merge hm
      have hu := unseen_set es t _ entry' hg
      have hs := known_set es t entry entry' hg
      simp only [Option.isNone_some, Bool.toNat_false, Nat.add_zero] at hu
      cases changed with
      | true => exact .inl (.inr ⟨hu, by simp at hk; omega⟩)
      | false => exact .inr ⟨rfl, hu, by simp at hk; omega⟩
    · cases h
  · rename_i hg
    cases h
    have hu := unseen_set es t _ f hg
    exact .inl (.inl (by simp at hu; omega))
  · cases h
    exact .inr ⟨rfl, rfl, Nat.le_refl _⟩

end Entries

/-! ## The worklist -/

/-- Adds a block to a worklist kept in ascending order. -/
def enqueue (id : Nat) : List Nat → List Nat
  | [] => [id]
  | x :: xs => if id < x then id :: x :: xs else if id = x then x :: xs else x :: enqueue id xs

/-- The frame sent along an edge by a block that ends with frame `f` and instruction `last`. A handler
starts with the exception alone, and a subroutine with its return address. -/
def outgoing (f : Frame Constant) (last : Option Instruction) : EdgeKind → Frame Constant
  | .exception => { stack := [.unknown] }
  | .branch => f.pushWords .unknown ((last.map Instruction.branchPushWords).getD 0)
  | .fallThrough | .switch => f

/-- Sends frames along edges and queues the blocks whose entry changed. -/
def spread (f : Frame Constant) (last : Option Instruction) :
    List Edge → Entries → List Nat → Except AnalysisError (Entries × List Nat)
  | [], es, queue => .ok (es, queue)
  | e :: edges, es, queue =>
    match es.propagate e.target (outgoing f last e.kind) with
    | .error err => .error err
    | .ok (es', changed) => spread f last edges es' (if changed then enqueue e.target queue else queue)

theorem spread_cases {f : Frame Constant} {last : Option Instruction} {edges : List Edge}
    {es es' : Entries} {queue queue' : List Nat} (h : spread f last edges es queue = .ok (es', queue')) :
    Entries.Below es' es ∨ queue' = queue ∧ es'.unseen = es.unseen ∧ es'.known ≤ es.known := by
  induction edges generalizing es queue with
  | nil =>
    cases h
    exact .inr ⟨rfl, rfl, Nat.le_refl _⟩
  | cons e edges ih =>
    unfold spread at h
    split at h
    · cases h
    · rename_i es1 changed hp
      have h1 := Entries.propagate_cases hp
      have h2 := ih h
      unfold Entries.Below at *
      rcases h1 with h1 | ⟨rfl, hu, hk⟩
      · left
        rcases h2 with h2 | ⟨_, hu', hk'⟩ <;> omega
      · rcases h2 with h2 | ⟨hq, hu', hk'⟩
        · left; omega
        · right; exact ⟨by simpa using hq, by omega, by omega⟩

abbrev Frames := Array (Option (Frame Constant))

structure Flow where
  entries : Entries
  frames : Frames

namespace Flow

section
variable (c : Code) (g : Graph) (pool : Pool)

def runBlock : List Nat → Frame Constant → Frames → Except AnalysisError (Frame Constant × Frames)
  | [], f, frames => .ok (f, frames)
  | i :: is, f, frames =>
    match c.body[i]? with
    | none => runBlock is f frames
    | some h =>
      match f.execute pool h with
      | .error e => .error e
      | .ok f' => runBlock is f' (frames.setIfInBounds i (some (f.seek h.position)))

def visit (flow : Flow) (id : Nat) (queue : List Nat) : Except AnalysisError (Flow × List Nat) :=
  match g.blocks[id]?, flow.entries[id]?.join with
  | some b, some entry =>
    match runBlock c pool b.indices entry flow.frames with
    | .error e => .error e
    | .ok (f, frames) =>
      match spread f (b.last?.bind c.instruction?) (g.successors id) flow.entries queue with
      | .error e => .error e
      | .ok (entries, queue) => .ok (⟨entries, frames⟩, queue)
  | _, _ => .ok (flow, queue)

theorem visit_cases {flow flow' : Flow} {id : Nat} {queue queue' : List Nat}
    (h : visit c g pool flow id queue = .ok (flow', queue')) :
    Entries.Below flow'.entries flow.entries ∨
      queue' = queue ∧ flow'.entries.unseen = flow.entries.unseen ∧
        flow'.entries.known ≤ flow.entries.known := by
  unfold visit at h
  split at h
  · split at h
    · cases h
    · split at h
      · cases h
      · rename_i hs
        cases h
        exact spread_cases hs
  · cases h
    exact .inr ⟨rfl, rfl, Nat.le_refl _⟩

/-- A visit leaves fewer blocks unseen, else fewer cells known, else fewer blocks to visit. -/
theorem visit_decreases {flow flow' : Flow} {id : Nat} {queue queue' : List Nat}
    (h : visit c g pool flow id queue = .ok (flow', queue')) :
    Prod.Lex (· < ·) (Prod.Lex (· < ·) (· < ·)) (flow'.entries.unseen, flow'.entries.known, queue'.length)
      (flow.entries.unseen, flow.entries.known, (id :: queue).length) := by
  rcases visit_cases c g pool h with hb | ⟨hq, hu, hk⟩
  · rcases hb with hb | ⟨hu, hk⟩
    · exact Prod.Lex.left _ _ hb
    · rw [hu]
      exact Prod.Lex.right _ (Prod.Lex.left _ _ hk)
  · rw [hu, hq]
    rcases Nat.lt_or_eq_of_le hk with hk | hk
    · exact Prod.Lex.right _ (Prod.Lex.left _ _ hk)
    · rw [hk]
      exact Prod.Lex.right _ (Prod.Lex.right _ (by simp))

/-- Visits the first block of the worklist until there is none. -/
def drain (flow : Flow) (queue : List Nat) : Except AnalysisError Flow :=
  match queue with
  | [] => .ok flow
  | id :: rest =>
    match _h : visit c g pool flow id rest with
    | .error e => .error e
    | .ok (flow', queue') => drain flow' queue'
termination_by (flow.entries.unseen, flow.entries.known, queue.length)
decreasing_by exact visit_decreases c g pool _h

def entryBlock? : Option Nat :=
  g.blocks.findIdx? fun b => b.start == 0 && !b.isEmpty

/-- Nothing known but the empty frame on entry of the method. -/
def initial : Flow :=
  let entries : Entries := List.replicate g.blocks.size none
  ⟨match entryBlock? g with
    | some id => entries.set id (some {})
    | none => entries,
   Array.replicate c.size none⟩

def analyze : Except AnalysisError Flow :=
  drain c g pool (initial c g) (entryBlock? g).toList

end

def frameAt (flow : Flow) (index : Nat) : Option (Frame Constant) :=
  flow.frames[index]?.join

def valueAt (flow : Flow) (index depth : Nat) : Option Constant :=
  (flow.frameAt index).bind (·.peek depth)

/-- Whether a literal string lies `depth` words below the top before the instruction. -/
def isConstantString (flow : Flow) (index depth : Nat) : Bool :=
  (flow.valueAt index depth).any Constant.isString

end Flow

end SinkCheck
