import Mathlib
import SinkCheck.Proofs.Completion

/-!
# The words that a rule watches

A table answers a call with the first of its rules that applies. The positions it names count the words of the
parameters behind the watched one, and a caller has pushed just these on top of the argument.
-/

namespace SinkCheck

/-! ## The rule that answers -/

namespace SinkRule

/-- The rule names the call, and the overload has a parameter that it watches. -/
def AppliesTo (rule : SinkRule) (d : MethodDescriptor) (m : Member) : Prop :=
  rule.owner = m.owner ∧ m.name ∈ rule.methods ∧ ∃ i ∈ rule.parameters, i < d.parameters.length

instance (rule : SinkRule) (d : MethodDescriptor) (m : Member) : Decidable (rule.AppliesTo d m) :=
  inferInstanceAs (Decidable (_ ∧ _ ∧ _))

def watched (rule : SinkRule) (d : MethodDescriptor) : List Nat :=
  rule.parameters.filter (· < d.parameters.length)

def pointFor (rule : SinkRule) (d : MethodDescriptor) (m : Member) : InjectionPoint :=
  ⟨rule.bugType, rule.parameters.filterMap d.stackOffset, some m.qualified⟩

section
variable {d : MethodDescriptor} {m : Member}

theorem stackOffset_eq_none {i : Nat} : d.stackOffset i = none ↔ ¬ i < d.parameters.length := by
  simp [MethodDescriptor.stackOffset]

theorem filterMap_stackOffset_eq_nil {is : List Nat} :
    is.filterMap d.stackOffset = [] ↔ ¬ ∃ i ∈ is, i < d.parameters.length := by
  simp only [List.filterMap_eq_nil_iff, stackOffset_eq_none, not_exists, not_and]

theorem point?_eq {rule : SinkRule} (h : rule.parameters ≠ []) :
    rule.point? d m = .ok (if ∃ i ∈ rule.parameters, i < d.parameters.length then some (rule.pointFor d m) else none) := by
  have hne : rule.parameters.isEmpty = false := by simpa using h
  rw [point?, hne, pointFor]
  by_cases hex : ∃ i ∈ rule.parameters, i < d.parameters.length
  · cases hps : rule.parameters.filterMap d.stackOffset with
    | nil => exact absurd hex (filterMap_stackOffset_eq_nil.mp hps)
    | cons p ps => simp only [if_pos hex]; rfl
  · simp only [if_neg hex, filterMap_stackOffset_eq_nil.mpr hex]; rfl

theorem firstPoint_eq {rules : List SinkRule} (h : ∀ rule ∈ rules, rule.parameters ≠ []) :
    firstPoint d m rules =
      .ok ((rules.find? fun rule => ∃ i ∈ rule.parameters, i < d.parameters.length).map (·.pointFor d m)) := by
  induction rules with
  | nil => rfl
  | cons rule rules ih =>
    rw [firstPoint, point?_eq (h rule (by simp)), List.find?_cons]
    by_cases hex : ∃ i ∈ rule.parameters, i < d.parameters.length
    · simp [hex]
    · have htail := ih fun r hr => h r (by simp [hr])
      simp only [hex, if_false, decide_false, htail]

end

end SinkRule

theorem RuleMatcher.Watchful.classify_eq {m : RuleMatcher} (hm : m.Watchful) {call : Member} {d : MethodDescriptor}
    (hd : MethodDescriptor.parse call.descriptor = .ok d) :
    m.classify call = .ok ((m.rules.find? (·.AppliesTo d call)).map (·.pointFor d call)) := by
  have hfind : m.rules.find? (·.AppliesTo d call) =
      (m.rules.filter (·.covers call)).find? fun rule => ∃ i ∈ rule.parameters, i < d.parameters.length := by
    rw [List.find?_filter]
    congr 1
    funext rule
    rw [Bool.eq_iff_iff, decide_eq_true_iff]
    simp [SinkRule.AppliesTo, SinkRule.covers, and_assoc]
  rw [hfind, RuleMatcher.classify]
  split
  · rename_i hnil
    rw [hnil]
    rfl
  · rw [hd]
    apply SinkRule.firstPoint_eq
    intro rule hrule
    exact hm rule (List.mem_filter.mp hrule).1

/-! ## Arguments on the stack -/

def FieldType.wordsOf (ts : List FieldType) : Nat :=
  ts.foldr (·.words + ·) 0

theorem FieldType.wordsOf_cons (t : FieldType) (ts : List FieldType) : wordsOf (t :: ts) = t.words + wordsOf ts := rfl

namespace Frame

section
variable {α : Type} (f : Frame α)

def pushArguments (args : List (FieldType × α)) : Frame α :=
  args.foldl (fun f arg => f.pushWords arg.2 arg.1.words) f

/-- The position holds the argument, and what lies from there down is the stack as the argument left it. -/
def TopWord (args : List (FieldType × α)) (i p : Nat) : Prop :=
  ∃ arg, args[i]? = some arg ∧ (f.pushArguments args).peek p = some arg.2 ∧
    ∀ j, (f.pushArguments args).peek (p + j) = (f.pushArguments (args.take (i + 1))).peek j

theorem pushArguments_append (args args' : List (FieldType × α)) :
    f.pushArguments (args ++ args') = (f.pushArguments args).pushArguments args' :=
  List.foldl_append

theorem peek_pushWords (a : α) (n j : Nat) : (f.pushWords a n).peek (n + j) = f.peek j := by
  simp [peek, pushWords, List.getElem?_append_right]

theorem peek_pushArguments (args : List (FieldType × α)) (j : Nat) :
    (f.pushArguments args).peek (FieldType.wordsOf (args.map Prod.fst) + j) = f.peek j := by
  induction args generalizing f j with
  | nil => simp [pushArguments, FieldType.wordsOf]
  | cons arg args ih =>
    have hstep := ih (f.pushWords arg.2 arg.1.words) (arg.1.words + j)
    rw [peek_pushWords] at hstep
    rw [← hstep, List.map_cons, FieldType.wordsOf_cons, Nat.add_comm arg.1.words, Nat.add_assoc]
    rfl

theorem peek_zero_pushArguments {args : List (FieldType × α)} {i : Nat} {arg : FieldType × α}
    (h : args[i]? = some arg) : (f.pushArguments (args.take (i + 1))).peek 0 = some arg.2 := by
  obtain ⟨hi, rfl⟩ := List.getElem?_eq_some_iff.mp h
  rw [← List.take_concat_get' args i hi, pushArguments_append]
  have hpos := args[i].1.words_pos
  simp [pushArguments, pushWords, peek, hpos]

/-- The words of the arguments behind it lie on top of an argument. -/
theorem topWord (args : List (FieldType × α)) {i : Nat} (hi : i < args.length) :
    f.TopWord args i (FieldType.wordsOf ((args.map Prod.fst).drop (i + 1))) := by
  have hbelow : ∀ j, (f.pushArguments args).peek (FieldType.wordsOf ((args.map Prod.fst).drop (i + 1)) + j) =
      (f.pushArguments (args.take (i + 1))).peek j := by
    intro j
    have := (f.pushArguments (args.take (i + 1))).peek_pushArguments (args.drop (i + 1)) j
    rwa [← pushArguments_append, List.take_append_drop, List.map_drop] at this
  have harg : args[i]? = some args[i] := List.getElem?_eq_getElem hi
  refine ⟨args[i], harg, ?_, hbelow⟩
  have htop := hbelow 0
  rwa [Nat.add_zero, peek_zero_pushArguments f harg] at htop

theorem stack_pushArguments (args : List (FieldType × α)) : f.pushArguments args =
    { f with stack := (args.flatMap fun arg => List.replicate arg.1.words arg.2).reverse ++ f.stack } := by
  induction args generalizing f with
  | nil => simp [pushArguments]
  | cons arg args ih =>
    have hstep := ih (f.pushWords arg.2 arg.1.words)
    rw [pushArguments, List.foldl_cons, ← pushArguments, hstep]
    simp [pushWords]

theorem popWords_pushArguments (args : List (FieldType × α)) :
    (f.pushArguments args).popWords (FieldType.wordsOf (args.map Prod.fst)) =
      .ok (args.flatMap fun arg => List.replicate arg.1.words arg.2, f) := by
  have hlength : (args.flatMap fun arg => List.replicate arg.1.words arg.2).length =
      FieldType.wordsOf (args.map Prod.fst) := by
    induction args with
    | nil => rfl
    | cons arg args ih => simp [FieldType.wordsOf_cons, ih]
  rw [stack_pushArguments, popWords, ← hlength]
  simp

end

end Frame

/-! ## The words of a point -/

theorem FieldType.wordsOf_drop_lt {ts : List FieldType} {i : Nat} (hi : i < ts.length) :
    wordsOf (ts.drop (i + 1)) < wordsOf ts := by
  induction ts generalizing i with
  | nil => simp at hi
  | cons t ts ih =>
    rw [wordsOf_cons, List.drop_succ_cons]
    have hpos := t.words_pos
    cases i with
    | zero => simpa using hpos
    | succ i =>
      have := ih (i := i) (by simpa using hi)
      omega

theorem MethodDescriptor.stackOffset_eq_some {d : MethodDescriptor} {i p : Nat} : d.stackOffset i = some p ↔
    i < d.parameters.length ∧ FieldType.wordsOf (d.parameters.drop (i + 1)) = p := by
  simp [stackOffset, FieldType.wordsOf]

theorem SinkRule.forall₂_watched (rule : SinkRule) (d : MethodDescriptor) (m : Member) :
    List.Forall₂ (fun i p => d.stackOffset i = some p) (rule.watched d) (rule.pointFor d m).arguments := by
  unfold watched pointFor
  induction rule.parameters with
  | nil => exact .nil
  | cons i is ih =>
    by_cases hi : i < d.parameters.length
    · have hp := MethodDescriptor.stackOffset_eq_some.mpr ⟨hi, rfl⟩
      rw [List.filter_cons, if_pos (by simpa using hi), List.filterMap_cons, hp]
      exact .cons hp ih
    · rw [List.filter_cons, if_neg (by simpa using hi), List.filterMap_cons, stackOffset_eq_none.mpr hi]
      exact ih

/-- **A table points at the words of the parameters it watches.** It answers a call iff one of its rules applies, and
with the first of them. However the arguments were pushed, each position is the top word of its parameter, and the
words of the arguments are those that the call pops. -/
theorem RuleMatcher.classify_points_at_words {m : RuleMatcher} (hm : m.Watchful) {call : Member} {d : MethodDescriptor}
    (hd : MethodDescriptor.parse call.descriptor = .ok d) :
    ((∃ point, m.classify call = .ok (some point)) ↔ ∃ rule ∈ m.rules, rule.AppliesTo d call) ∧
    (m.classify call = .ok none ↔ ∀ rule ∈ m.rules, ¬ rule.AppliesTo d call) ∧
    (∀ point, m.classify call = .ok (some point) →
      ∃ rule, m.rules.find? (·.AppliesTo d call) = some rule ∧
        point.bugType = rule.bugType ∧ point.label = some call.qualified ∧
        ∀ (α : Type) (f : Frame α) args, args.map Prod.fst = d.parameters →
          List.Forall₂ (fun i p => f.TopWord args i p ∧ p < d.argumentWords) (rule.watched d) point.arguments) ∧
    ∀ (α : Type) (f : Frame α) args, args.map Prod.fst = d.parameters →
      (f.pushArguments args).popWords d.argumentWords =
        .ok (args.flatMap fun arg => List.replicate arg.1.words arg.2, f) := by
  rw [hm.classify_eq hd]
  refine ⟨?_, ?_, ?_, ?_⟩
  · simp only [Except.ok.injEq, ← Option.isSome_iff_exists, Option.isSome_map, List.find?_isSome, decide_eq_true_eq]
  · simp
  · intro point hpoint
    simp only [Except.ok.injEq, Option.map_eq_some_iff] at hpoint
    obtain ⟨rule, hrule, rfl⟩ := hpoint
    refine ⟨rule, hrule, rfl, rfl, ?_⟩
    intro α f args hargs
    apply (rule.forall₂_watched d call).imp
    intro i p hp
    obtain ⟨hi, rfl⟩ := MethodDescriptor.stackOffset_eq_some.mp hp
    refine ⟨?_, FieldType.wordsOf_drop_lt hi⟩
    rw [← hargs] at hi ⊢
    exact f.topWord args (by simpa using hi)
  · intro α f args hargs
    have hwords : d.argumentWords = FieldType.wordsOf (args.map Prod.fst) := by rw [hargs]; rfl
    rw [hwords]
    exact f.popWords_pushArguments args

namespace Sample

def layered : RuleMatcher where
  name := "layered"
  rules := [⟨"X", "a/B", ["run"], [5]⟩, ⟨"Y", "a/B", ["close", "run"], [2, 7, 0, 2]⟩, ⟨"Z", "a/B", ["run"], [1]⟩]

def layeredCall : Member := ⟨"a/B", "run", "(JLjava/lang/String;D)V"⟩

def layeredArguments : List (FieldType × String) :=
  [(.long, "key"), (.object "java/lang/String", "text"), (.double, "weight")]

end Sample

theorem RuleMatcher.layered_points :
    let d : MethodDescriptor := ⟨[.long, .object "java/lang/String", .double], none⟩
    let f : Frame String := { stack := ["receiver"] }
    Sample.layered.Watchful ∧ MethodDescriptor.parse Sample.layeredCall.descriptor = .ok d ∧
      Sample.layered.classify Sample.layeredCall = .ok (some ⟨"Y", [0, 3, 0], some "a/B.run"⟩) ∧
      List.Forall₂ (fun i p => f.TopWord Sample.layeredArguments i p ∧ p < 5) [2, 0, 2] [0, 3, 0] ∧
      (f.pushArguments Sample.layeredArguments).popWords 5 =
        .ok (["key", "key", "text", "weight", "weight"], f) := by
  intro d f
  have hm : Sample.layered.Watchful := by simp [Watchful, Sample.layered]
  have hd : MethodDescriptor.parse Sample.layeredCall.descriptor = .ok d := by cbv
  have hclassify : Sample.layered.classify Sample.layeredCall = .ok (some ⟨"Y", [0, 3, 0], some "a/B.run"⟩) := by
    cbv
  obtain ⟨-, -, hpoint, hpop⟩ := classify_points_at_words hm hd
  obtain ⟨rule, hrule, -, -, hwords⟩ := hpoint _ hclassify
  have hfirst : Sample.layered.rules.find? (·.AppliesTo d Sample.layeredCall) =
      some ⟨"Y", "a/B", ["close", "run"], [2, 7, 0, 2]⟩ := by decide
  rw [hfirst] at hrule
  cases hrule
  exact ⟨hm, hd, hclassify, hwords String f Sample.layeredArguments rfl, hpop String f Sample.layeredArguments rfl⟩

end SinkCheck
