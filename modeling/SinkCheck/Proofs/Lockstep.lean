import SinkCheck.Proofs.Agreement
import SinkCheck.Proofs.Grammar
import SinkCheck.Proofs.Heights

/-!
# Constants and taint in lockstep

At frames of one depth the two interpreters fail alike or move alike, by the words that the effect pops and pushes.
What a failure leaves behind is seen on programs that change their state in place. They compute what the
interpreters compute, and no effect fails once it has changed something: a failure moves the position and nothing
else.
-/

namespace SinkCheck

/-! ## Programs in place -/

/-- A program on a state. The state that it has reached is there also after a failure. -/
abbrev InPlace (σ α : Type) : Type :=
  EStateM AnalysisError σ α

namespace InPlace

section
variable {σ α : Type}

/-- The end of a program from `s` that leaves the state alone if it fails. -/
def settled (s : σ) : Except AnalysisError (α × σ) → EStateM.Result AnalysisError σ α
  | .ok (a, t) => .ok a t
  | .error err => .error err s

def Takes (m : InPlace σ α) (op : σ → Except AnalysisError (α × σ)) : Prop :=
  ∀ s, m.run s = settled s (op s)

def Performs (m : InPlace σ Unit) (op : σ → Except AnalysisError σ) : Prop :=
  ∀ s, m.run s = settled s ((op s).map (Prod.mk ()))

theorem performs_modify (g : σ → σ) : Performs (modify g) fun s => .ok (g s) :=
  fun s => EStateM.run_modify g s

/-- After a program that may fail come changes that cannot. -/
theorem Takes.modify {m : InPlace σ α} {op : σ → Except AnalysisError (α × σ)} (hm : m.Takes op) (g : α → σ → σ) :
    Performs (do let a ← m; modify (g a)) fun s => (op s).map fun (a, t) => g a t := by
  intro s
  rw [EStateM.run_bind, hm s]
  beta_reduce
  cases op s with
  | error err => rfl
  | ok p => exact EStateM.run_modify (g p.1) p.2

def executing (seek : σ → σ) (interpret : Effect → InPlace σ Unit) (pool : Pool) (h : Placed) : InPlace σ Unit := do
  modify seek
  match h.instruction.effect pool with
  | .error err => throw err
  | .ok e => interpret e

theorem run_executing (seek : σ → σ) {interpret : Effect → InPlace σ Unit} {op : Effect → σ → Except AnalysisError σ}
    (hi : ∀ e, (interpret e).Performs (op e)) (pool : Pool) (h : Placed) (s : σ) :
    (executing seek interpret pool h).run s =
      settled (seek s) (Except.map (Prod.mk ()) (match h.instruction.effect pool with
        | .error err => .error err
        | .ok e => op e (seek s))) := by
  rw [executing, EStateM.run_bind, EStateM.run_modify]
  cases h.instruction.effect pool with
  | error err => exact EStateM.run_throw err (seek s)
  | ok e => exact hi e (seek s)

end

end InPlace

namespace Frame

section
variable {α : Type}

def popInPlace : InPlace (Frame α) α := do
  let f ← get
  match f.stack with
  | a :: rest =>
    set { f with stack := rest }
    return a
  | [] => throw (.underflow f.position)

def popWordsInPlace (n : Nat) : InPlace (Frame α) (List α) := do
  let f ← get
  if n ≤ f.stack.length then
    set { f with stack := f.stack.drop n }
    return (f.stack.take n).reverse
  else throw (.underflow f.position)

def shuffleInPlace (s : Shuffle) : InPlace (Frame α) Unit := do
  let cells ← popWordsInPlace s.pattern.1
  modify (·.pushAll (s.pattern.2.filterMap (cells[·]?)))

theorem takes_pop : (popInPlace : InPlace (Frame α) α).Takes pop := by
  rintro ⟨stack, locals, position⟩
  cases stack with
  | nil => rfl
  | cons a rest => rfl

theorem takes_popWords (n : Nat) : (popWordsInPlace n : InPlace (Frame α) (List α)).Takes (popWords · n) := by
  intro f
  rw [popWordsInPlace, EStateM.run_bind, EStateM.run_get]
  simp only [popWords]
  by_cases hn : n ≤ f.stack.length
  · rw [if_pos hn, if_pos hn]
    rfl
  · rw [if_neg hn, if_neg hn]
    rfl

theorem performs_shuffle (s : Shuffle) : (shuffleInPlace s : InPlace (Frame α) Unit).Performs (shuffle · s) := by
  intro f
  rw [shuffleInPlace, (takes_popWords s.pattern.1).modify fun cells f => _]
  simp only [shuffle]
  cases f.popWords s.pattern.1 with
  | error err => rfl
  | ok p => rfl

end

def transferInPlace : Effect → InPlace (Frame Constant) Unit
  | .consume pops => do
    let _ ← popWordsInPlace pops
  | .derive pops pushes | .fresh pops pushes => do
    let _ ← popWordsInPlace pops
    modify (·.pushWords .unknown pushes)
  | .constant literal words => modify (·.pushWords (.ofLiteral literal) words)
  | .load slot words => modify fun f => f.pushAll (f.load slot words)
  | .store slot words => do
    let cells ← popWordsInPlace words
    modify (·.store slot cells)
  | .increment slot => modify (·.store slot [.unknown])
  | .shuffle s => shuffleInPlace s
  | .identity => pure ()
  | .arrayStore valueWords => do
    let _ ← popWordsInPlace (2 + valueWords)
  | .readStatic _ words => modify (·.pushWords .unknown words)
  | .readField _ words => do
    let _ ← popInPlace
    modify (·.pushWords .unknown words)
  | .invoke call => do
    let _ ← popWordsInPlace call.pops
    modify (·.pushWords .unknown call.resultWords)
  | .throw => do
    let _ ← popInPlace

theorem performs_transfer (e : Effect) : (transferInPlace e).Performs (transfer · e) := by
  cases e with
  | consume n => exact (takes_popWords n).modify fun _ f => f
  | derive n m | fresh n m => exact (takes_popWords n).modify fun _ f => f.pushWords Constant.unknown m
  | constant literal n => exact InPlace.performs_modify _
  | load slot n => exact InPlace.performs_modify _
  | store slot n => exact (takes_popWords n).modify fun cells f => f.store slot cells
  | increment slot => exact InPlace.performs_modify _
  | shuffle s => exact performs_shuffle s
  | identity => exact InPlace.performs_modify id
  | arrayStore n => exact (takes_popWords (2 + n)).modify fun _ f => f
  | readStatic m n => exact InPlace.performs_modify _
  | readField m n => exact takes_pop.modify fun _ f => f.pushWords Constant.unknown n
  | invoke call => exact (takes_popWords call.pops).modify fun _ f => f.pushWords Constant.unknown call.resultWords
  | throw => exact takes_pop.modify fun _ f => f

end Frame

namespace ReplayState

section
variable {α : Type}

def onFrame (m : InPlace (Frame Cell) α) : InPlace ReplayState α := fun s =>
  match m.run s.frame with
  | .ok a f => .ok a (s.setFrame f)
  | .error err f => .error err (s.setFrame f)

theorem takes_onFrame {m : InPlace (Frame Cell) α} {op : Frame Cell → Except AnalysisError (α × Frame Cell)}
    (hm : m.Takes op) : (onFrame m).Takes fun s => (op s.frame).map fun (a, f) => (a, s.setFrame f) := by
  intro s
  have hs : m.run s.frame = _ := hm s.frame
  rw [EStateM.run, onFrame, hs]
  beta_reduce
  cases op s.frame with
  | error err => rfl
  | ok p => rfl

theorem performs_onFrame {m : InPlace (Frame Cell) Unit} {op : Frame Cell → Except AnalysisError (Frame Cell)}
    (hm : m.Performs op) : (onFrame m).Performs fun s => (op s.frame).map s.setFrame := by
  intro s
  rw [takes_onFrame hm s]
  beta_reduce
  cases op s.frame with
  | error err => rfl
  | ok f => rfl

end

variable (policy : Policy)

def invokeInPlace (call : Call) : InPlace ReplayState Unit := do
  let cells ← onFrame (Frame.popWordsInPlace call.pops)
  modify fun s =>
    if call.hasReceiver then s.finishCall policy call cells.head? cells.tail
    else s.finishCall policy call none cells

def applyInPlace : Effect → InPlace ReplayState Unit
  | .consume pops => do
    let _ ← onFrame (Frame.popWordsInPlace pops)
  | .derive pops pushes => do
    let cells ← onFrame (Frame.popWordsInPlace pops)
    modify fun s => s.setFrame (s.frame.pushWords ⟨cells.any Cell.tainted, none⟩ pushes)
  | .fresh pops pushes => do
    let _ ← onFrame (Frame.popWordsInPlace pops)
    modify (·.pushFresh false pushes)
  | .constant _ words | .readStatic _ words => modify fun s => s.setFrame (s.frame.pushWords .clean words)
  | .load slot words => modify fun s => s.setFrame (s.frame.pushAll (s.frame.load slot words))
  | .store slot words => do
    let cells ← onFrame (Frame.popWordsInPlace words)
    modify fun s => s.setFrame (s.frame.store slot cells)
  | .increment _ | .identity => pure ()
  | .shuffle pattern => onFrame (Frame.shuffleInPlace pattern)
  | .arrayStore valueWords => do
    let cells ← onFrame (Frame.popWordsInPlace (2 + valueWords))
    modify (·.taintContainer ((cells.drop 2).any Cell.tainted) cells.head?)
  | .readField field words => do
    let object ← onFrame Frame.popInPlace
    modify (·.pushFresh (object.tainted || policy.isSourceField field) words)
  | .invoke call => invokeInPlace policy call
  | .throw => do
    let _ ← onFrame Frame.popInPlace

theorem performs_onFrame_modify {α : Type} {m : InPlace (Frame Cell) α}
    {op : Frame Cell → Except AnalysisError (α × Frame Cell)} (hm : m.Takes op) (g : α → ReplayState → ReplayState) :
    InPlace.Performs (do let a ← onFrame m; modify (g a))
      fun s => (op s.frame).map fun (a, f) => g a (s.setFrame f) := by
  intro s
  rw [(takes_onFrame hm).modify g s]
  beta_reduce
  cases op s.frame with
  | error err => rfl
  | ok p => rfl

theorem performs_apply (e : Effect) : (applyInPlace policy e).Performs (apply policy · e) := by
  cases e with
  | consume n => exact performs_onFrame_modify (Frame.takes_popWords n) fun _ s => s
  | derive n m =>
    exact performs_onFrame_modify (Frame.takes_popWords n) fun cells s =>
      s.setFrame (s.frame.pushWords ⟨cells.any Cell.tainted, none⟩ m)
  | fresh n m => exact performs_onFrame_modify (Frame.takes_popWords n) fun _ s => s.pushFresh false m
  | constant literal n | readStatic member n => exact InPlace.performs_modify _
  | load slot n => exact InPlace.performs_modify _
  | store slot n =>
    exact performs_onFrame_modify (Frame.takes_popWords n) fun cells s => s.setFrame (s.frame.store slot cells)
  | increment slot | identity => exact InPlace.performs_modify id
  | shuffle pattern => exact performs_onFrame (Frame.performs_shuffle pattern)
  | arrayStore n =>
    exact performs_onFrame_modify (Frame.takes_popWords (2 + n)) fun cells s =>
      s.taintContainer ((cells.drop 2).any Cell.tainted) cells.head?
  | readField member n =>
    exact performs_onFrame_modify Frame.takes_pop fun object s =>
      s.pushFresh (object.tainted || policy.isSourceField member) n
  | invoke call =>
    exact performs_onFrame_modify (Frame.takes_popWords call.pops) fun cells s =>
      if call.hasReceiver then s.finishCall policy call cells.head? cells.tail
      else s.finishCall policy call none cells
  | throw => exact performs_onFrame_modify Frame.takes_pop fun _ s => s

end ReplayState

/-! ## Effects that are not resolved -/

def AnalysisError.OfOperand (err : AnalysisError) : Prop :=
  (∃ index expected, err = .pool index expected) ∨ ∃ text, err = .descriptor text

theorem Except.map_eq_error {ε α β : Type} {x : Except ε α} {f : α → β} {err : ε} :
    x.map f = .error err ↔ x = .error err := by
  cases x with
  | error err' => simp [Except.map]
  | ok a => simp [Except.map]

section
variable {pool : Pool} {index : UInt16} {err : AnalysisError}

theorem Pool.error_of_literal (h : pool.literal index = .error err) : err.OfOperand := by
  unfold literal at h
  split at h <;> cases h
  exact .inl ⟨_, _, rfl⟩

theorem Pool.error_of_wideLiteral (h : pool.wideLiteral index = .error err) : err.OfOperand := by
  unfold wideLiteral at h
  split at h <;> cases h
  exact .inl ⟨_, _, rfl⟩

theorem Pool.error_of_sizedField (h : pool.sizedField index = .error err) : err.OfOperand := by
  unfold sizedField field at h
  split at h
  · rename_i hm
    split at hm <;> cases hm
    cases h
    exact .inl ⟨_, _, rfl⟩
  · split at h
    · rename_i ht
      cases h
      obtain ⟨piece, -, rfl⟩ := FieldType.piece_of_parse ht
      exact .inr ⟨_, rfl⟩
    · cases h

theorem Call.error_of_resolve {kind : InvokeKind} (h : Call.resolve pool kind index = .error err) :
    err.OfOperand := by
  unfold resolve Pool.method at h
  split at h
  · rename_i hm
    split at hm <;> cases hm
    cases h
    exact .inl ⟨_, _, rfl⟩
  · split at h
    · rename_i ht
      cases h
      exact .inr ⟨_, MethodDescriptor.parse_eq_error ht⟩
    · cases h

theorem Instruction.error_of_effect {i : Instruction} (h : i.effect pool = .error err) : err.OfOperand := by
  cases i with
  | ldc index => exact Pool.error_of_literal (Except.map_eq_error.mp h)
  | ldc2 index => exact Pool.error_of_wideLiteral (Except.map_eq_error.mp h)
  | getStatic index | putStatic index | getField index | putField index =>
    exact Pool.error_of_sizedField (Except.map_eq_error.mp h)
  | invoke kind index => exact Call.error_of_resolve (Except.map_eq_error.mp h)
  | leave kind => cases kind <;> cases h
  | _ => cases h

end

/-! ## Lockstep -/

theorem Frame.Moved.net {α : Type} [Inhabited α] {stands : Constant → α → Prop} {e : Effect} {f f' : Frame α}
    (hm : Moved stands e f f') : f'.depth + e.net.1 = f.depth + e.net.2 := by
  have hdepth := hm.depth
  by_cases hne : e = .identity
  · subst hne
    exact congrArg (· + 1) hdepth
  · rwa [Effect.demand_eq hne, Effect.length_pushed hne] at hdepth

inductive Placed.Stops (pool : Pool) (h : Placed) (depth : Nat) : AnalysisError → Prop
  | operand {err : AnalysisError} (he : h.instruction.effect pool = .error err) (ho : err.OfOperand) :
    Stops pool h depth err
  | underflow {e : Effect} (he : h.instruction.effect pool = .ok e) (hd : depth < e.demand) :
    Stops pool h depth (.underflow h.position)

theorem Placed.stops_or_effect (pool : Pool) (h : Placed) (n : Nat) :
    (∃ err, h.Stops pool n err) ∨ ∃ e, h.instruction.effect pool = .ok e ∧ e.demand ≤ n := by
  cases he : h.instruction.effect pool with
  | error err => exact .inl ⟨err, .operand he (Instruction.error_of_effect he)⟩
  | ok e =>
    rcases Nat.lt_or_ge n e.demand with hd | hd
    · exact .inl ⟨_, .underflow he hd⟩
    · exact .inr ⟨e, rfl, hd⟩

def Frame.executeInPlace (pool : Pool) (h : Placed) : InPlace (Frame Constant) Unit :=
  .executing (·.seek h.position) transferInPlace pool h

def ReplayState.executeInPlace (policy : Policy) (pool : Pool) (h : Placed) : InPlace ReplayState Unit :=
  .executing (fun s => s.setFrame (s.frame.seek h.position)) (applyInPlace policy) pool h

section
variable (policy : Policy) (pool : Pool) (h : Placed)

theorem Frame.run_executeInPlace (k : Frame Constant) : (executeInPlace pool h).run k =
    InPlace.settled (k.seek h.position) ((k.execute pool h).map (Prod.mk ())) :=
  InPlace.run_executing _ performs_transfer pool h k

theorem ReplayState.run_executeInPlace (s : ReplayState) : (executeInPlace policy pool h).run s =
    InPlace.settled (s.setFrame (s.frame.seek h.position)) ((s.execute policy pool h).map (Prod.mk ())) :=
  InPlace.run_executing _ (performs_apply policy) pool h s

variable {policy pool h}

theorem Placed.Stops.constants {err : AnalysisError} {k : Frame Constant} (hs : h.Stops pool k.depth err) :
    k.execute pool h = .error err := by
  cases hs with
  | operand he ho => rw [Frame.execute, he]
  | underflow he hd =>
    rw [Frame.execute, he]
    exact Frame.transfer_of_lt (f := k.seek h.position) hd

theorem Placed.Stops.taint {err : AnalysisError} {s : ReplayState} (hs : h.Stops pool s.frame.depth err) :
    s.execute policy pool h = .error err := by
  cases hs with
  | operand he ho => rw [ReplayState.execute, he]
  | underflow he hd =>
    rw [ReplayState.execute, he]
    exact ReplayState.apply_of_lt (s := s.setFrame (s.frame.seek h.position)) policy hd

theorem Frame.execute_net {e : Effect} {k : Frame Constant} (he : h.instruction.effect pool = .ok e)
    (hd : e.demand ≤ k.depth) :
    ∃ k', k.execute pool h = .ok k' ∧ k'.depth + e.net.1 = k.depth + e.net.2 := by
  obtain ⟨k', hk', hm⟩ := transfer_of_le (f := k.seek h.position) hd
  exact ⟨k', by rw [execute, he]; exact hk', hm.net⟩

variable (policy) in
theorem ReplayState.execute_net {e : Effect} {s : ReplayState} (he : h.instruction.effect pool = .ok e)
    (hd : e.demand ≤ s.frame.depth) :
    ∃ s', s.execute policy pool h = .ok s' ∧ s'.frame.depth + e.net.1 = s.frame.depth + e.net.2 := by
  obtain ⟨s', hs', hf⟩ := apply_of_le (s := s.setFrame (s.frame.seek h.position)) policy hd
  obtain ⟨g, -, hm⟩ := hf.moved
  refine ⟨s', by rw [execute, he]; exact hs', ?_⟩
  -- `g` taints an object on the way: that changes cells and no depth
  rw [hm.net, Frame.depth_mapCells]
  rfl

end

/-- **The interpreters go in lockstep.** At equal depths an instruction stops both with one error or executes in
both. Stopped, both have moved to the instruction and changed nothing else; executed, both are higher by what the
effect pushes and lower by what it pops. -/
theorem execute_lockstep (policy : Policy) (pool : Pool) (h : Placed) {k : Frame Constant} {s : ReplayState}
    (hd : k.depth = s.frame.depth) :
    (∃ err, h.Stops pool k.depth err ∧
      k.execute pool h = .error err ∧ s.execute policy pool h = .error err ∧
      (Frame.executeInPlace pool h).run k = .error err (k.seek h.position) ∧
      (ReplayState.executeInPlace policy pool h).run s = .error err (s.setFrame (s.frame.seek h.position))) ∨
    ∃ e k' s', h.instruction.effect pool = .ok e ∧
      k.execute pool h = .ok k' ∧ s.execute policy pool h = .ok s' ∧
      (Frame.executeInPlace pool h).run k = .ok () k' ∧
      (ReplayState.executeInPlace policy pool h).run s = .ok () s' ∧
      k'.depth = s'.frame.depth ∧ k'.depth + e.net.1 = k.depth + e.net.2 := by
  have hconstants := Frame.run_executeInPlace pool h k
  have htaint := ReplayState.run_executeInPlace policy pool h s
  rcases h.stops_or_effect pool k.depth with ⟨err, hstop⟩ | ⟨e, he, hdemand⟩
  · have hk : k.execute pool h = .error err := hstop.constants
    have hs : s.execute policy pool h = .error err := Placed.Stops.taint (hd ▸ hstop)
    rw [hk] at hconstants
    rw [hs] at htaint
    exact .inl ⟨err, hstop, hk, hs, hconstants, htaint⟩
  · obtain ⟨k', hk, hk'⟩ := Frame.execute_net he hdemand
    obtain ⟨s', hs, hs'⟩ := ReplayState.execute_net policy he (hd ▸ hdemand)
    rw [hk] at hconstants
    rw [hs] at htaint
    exact .inr ⟨e, k', s', he, hk, hs, hconstants, htaint, by omega, hk'⟩

namespace Sample

def addNumber : Placed :=
  ⟨7, .invoke .virtual 1⟩

def numbers : Pool :=
  ⟨#[none, some (.method ⟨"acme/Query", "add", "(J)Lacme/Query;"⟩)]⟩

def integers (n : Nat) : Frame Constant where
  stack := List.replicate n (.integer 1)

def receivers (n : Nat) : ReplayState where
  frame.stack := List.replicate n (.ofObject 0 true)
  next := 1

end Sample

/-- Three words are enough for the call, two are not. -/
theorem added_number_lockstep :
    (∀ n, (Sample.integers n).depth = (Sample.receivers n).frame.depth) ∧
    (∃ k s, (Frame.executeInPlace Sample.numbers Sample.addNumber).run (Sample.integers 3) = .ok () k ∧
      (ReplayState.executeInPlace UntrustedSources.webDefaults.policy Sample.numbers Sample.addNumber).run
        (Sample.receivers 3) = .ok () s ∧ k.depth = s.frame.depth ∧ k.depth + 3 = 3 + 1) ∧
    (Frame.executeInPlace Sample.numbers Sample.addNumber).run (Sample.integers 2) =
      .error (.underflow 7) ((Sample.integers 2).seek 7) ∧
    ∃ s, (ReplayState.executeInPlace UntrustedSources.webDefaults.policy Sample.numbers Sample.addNumber).run
      (Sample.receivers 2) = .error (.underflow 7) s ∧ s.frame.stack = (Sample.receivers 2).frame.stack := by
  have hdepth : ∀ n, (Sample.integers n).depth = (Sample.receivers n).frame.depth := by
    intro n
    simp [Sample.integers, Sample.receivers, Frame.depth]
  have hcall : Sample.addNumber.instruction.effect Sample.numbers =
      .ok (.invoke ⟨.virtual, ⟨"acme/Query", "add", "(J)Lacme/Query;"⟩, 2, 1⟩) := by decide +kernel
  have hthree : ((Sample.integers 3).execute Sample.numbers Sample.addNumber).isOk = true := by decide +kernel
  have htwo : (Sample.integers 2).execute Sample.numbers Sample.addNumber = .error (.underflow 7) := by decide +kernel
  refine ⟨hdepth, ?_, ?_⟩
  · rcases execute_lockstep UntrustedSources.webDefaults.policy Sample.numbers Sample.addNumber (hdepth 3) with
      ⟨err, -, hk, -⟩ | ⟨e, k, s, he, -, -, hk, hs, heq, hnet⟩
    · rw [hk] at hthree
      cases hthree
    · rw [hcall] at he
      cases he
      exact ⟨k, s, hk, hs, heq, hnet⟩
  · rcases execute_lockstep UntrustedSources.webDefaults.policy Sample.numbers Sample.addNumber (hdepth 2) with
      ⟨err, -, hk, -, hconstants, htaint⟩ | ⟨e, k, s, he, hk, -⟩
    · rw [htwo] at hk
      cases hk
      exact ⟨hconstants, _, htaint, rfl⟩
    · rw [htwo] at hk
      cases hk

end SinkCheck
