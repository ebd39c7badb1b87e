import SinkCheck.Proofs.Origins

/-!
# Transfer of constants

What the transfer of an effect does to constants, word by word. Running instructions keeps the order
between frames (`Covers`) and distributes over the join of any set of frames (`Tight`).
-/

namespace SinkCheck

def Origin.read (f : Frame Constant) : Origin → Option Constant
  | .given k => some k
  | .copy w => f.word w

namespace Frame

section
variable {f : Frame Constant} {e : Effect}

theorem Moved.read {f' : Frame Constant} (hm : Moved Eq e f f') (w : Place) : f'.word w = (e.origin w).read f := by
  have hw := hm.word w
  cases ho : e.origin w with
  | given k =>
    rw [ho] at hw
    obtain ⟨a, ha, rfl⟩ := hw
    exact ha
  | copy v =>
    rw [ho] at hw
    exact hw

theorem moved_increment (slot : Nat) : Moved Eq (.increment slot) f (f.store slot [.unknown]) where
  depth := rfl
  word
    | .stack d => by rw [word_store_stack]; rfl
    | .slot i => by
      rw [word_store_slot, Effect.origin, Effect.slotOrigin]
      by_cases hi : i = slot
      · subst hi
        rw [if_pos rfl, if_pos (by simp)]
        exact ⟨.unknown, by simp, rfl⟩
      · rw [if_neg hi, if_neg (by simp only [List.length_singleton]; omega)]
        rfl

theorem transfer_of_lt (h : f.depth < e.demand) : f.transfer e = .error (.underflow f.position) := by
  cases e with
  | consume n | derive n m | fresh n m | store slot n | arrayStore n | invoke call =>
    exact congrArg (Except.map _) (popWords_of_lt f h)
  | shuffle s =>
    have hp : f.popWords s.pattern.1 = _ := popWords_of_lt f h
    simp only [transfer, shuffle, hp]
  | readField m n | throw => exact congrArg (Except.map _) (pop_of_lt f h)
  | constant | load | increment | identity | readStatic => exact absurd h (Nat.not_lt_zero _)

theorem transfer_of_le (h : e.demand ≤ f.depth) : ∃ f', f.transfer e = .ok f' ∧ Moved Eq e f f' := by
  cases e with
  | consume n | arrayStore n =>
    exact ⟨_, congrArg (Except.map _) (popWords_of_le f h),
      moved_given (n := 0) h (fun _ => rfl) rfl (Eq.refl .unknown)⟩
  | derive n m | fresh n m | invoke call =>
    exact ⟨_, congrArg (Except.map _) (popWords_of_le f h), moved_given h (fun _ => rfl) rfl rfl⟩
  | constant literal n | readStatic m n => exact ⟨_, rfl, moved_given h (fun _ => rfl) rfl rfl⟩
  | load slot n => exact ⟨_, rfl, moved_load slot n⟩
  | store slot n => exact ⟨_, congrArg (Except.map _) (popWords_of_le f h), moved_store slot n h⟩
  | increment slot => exact ⟨_, rfl, moved_increment slot⟩
  | identity => exact ⟨f, rfl, moved_identity⟩
  | shuffle s => exact moved_shuffle s h
  | readField m n =>
    obtain ⟨a, -, hp⟩ := pop_of_le f h
    exact ⟨_, congrArg (Except.map _) hp, moved_given h (fun _ => rfl) rfl rfl⟩
  | throw =>
    obtain ⟨a, -, hp⟩ := pop_of_le f h
    exact ⟨_, congrArg (Except.map _) hp, moved_given (n := 0) h (fun _ => rfl) rfl (Eq.refl .unknown)⟩

theorem transfer_eq_ok {f' : Frame Constant} (h : f.transfer e = .ok f') : e.demand ≤ f.depth ∧ Moved Eq e f f' := by
  rcases Nat.lt_or_ge f.depth e.demand with hd | hd
  · rw [transfer_of_lt hd] at h
    cases h
  · obtain ⟨g, hg, hm⟩ := transfer_of_le hd
    rw [hg] at h
    cases h
    exact ⟨hd, hm⟩

end

theorem moved_pushWords (f : Frame Constant) (n : Nat) : Moved Eq (.fresh 0 n) f (f.pushWords .unknown n) :=
  moved_given (Nat.zero_le _) (fun _ => rfl) rfl rfl

/-! ## Order and join -/

/-- `f` is as high as `g` and knows no word that `g` does not hold. -/
structure Covers (f g : Frame Constant) : Prop where
  depth : f.depth = g.depth
  word : ∀ w k, k.isKnown → f.word w = some k → g.word w = some k

/-- `f` knows every word that all frames of `P` hold alike. -/
def Tight (P : Frame Constant → Prop) (f : Frame Constant) : Prop :=
  ∀ w k, k.isKnown → (∀ g, P g → g.word w = some k) → f.word w = some k

section
variable {e : Effect} {f g h f' g' : Frame Constant}

theorem Covers.of_word (hw : f.word = g.word) : f.Covers g :=
  ⟨depth_congr hw, fun _ _ _ hf => hw ▸ hf⟩

theorem Covers.trans (hfg : f.Covers g) (hgh : g.Covers h) : f.Covers h :=
  ⟨hfg.depth.trans hgh.depth, fun w k hk hf => hgh.word w k hk (hfg.word w k hk hf)⟩

theorem Moved.congr (hf : Moved Eq e f f') (hg : Moved Eq e g g') (hw : f.word = g.word) : f'.word = g'.word := by
  funext w
  rw [hf.read, hg.read]
  cases e.origin w with
  | given k => rfl
  | copy v => exact congrFun hw v

theorem Moved.covers (hf : Moved Eq e f f') (hg : Moved Eq e g g') (hc : f.Covers g) : f'.Covers g' := by
  refine ⟨?_, ?_⟩
  · have h1 := hf.depth
    have h2 := hg.depth
    have h3 := hc.depth
    omega
  · intro w k hk hw
    rw [hf.read] at hw
    rw [hg.read]
    cases ho : e.origin w with
    | given l => rwa [ho] at hw
    | copy v =>
      rw [ho] at hw
      exact hc.word v k hk hw

/-- Effects distribute over joins. A word that all frames of `Q` hold alike is given by the effect, or
is a copy of a word that all frames of `P` hold alike. -/
theorem Moved.tight {P Q : Frame Constant → Prop} (hf : Moved Eq e f f') (hne : ∃ g, P g)
    (hpq : ∀ g, P g → ∃ g', Q g' ∧ Moved Eq e g g') (ht : Tight P f) : Tight Q f' := by
  intro w k hk hall
  rw [hf.read]
  cases ho : e.origin w with
  | given l =>
    obtain ⟨g, hg⟩ := hne
    obtain ⟨g', hq, hm⟩ := hpq g hg
    have := hall g' hq
    rwa [hm.read, ho] at this
  | copy v =>
    refine ht v k hk fun g hg => ?_
    obtain ⟨g', hq, hm⟩ := hpq g hg
    have := hall g' hq
    rwa [hm.read, ho] at this

end

end Frame

theorem Constant.join_eq_known {a b k : Constant} (hk : k.isKnown) : a.join b = k ↔ a = k ∧ b = k := by
  unfold join
  split
  · rename_i h
    subst h
    exact ⟨fun h => ⟨h, h⟩, fun h => h.1⟩
  · rename_i h
    constructor
    · rintro rfl
      cases hk
    · rintro ⟨rfl, rfl⟩
      exact absurd rfl h

namespace Frame

section
variable {f g h : Frame Constant} {changed : Bool}

theorem known_of_merge (hm : f.merge Constant.join g = .ok (h, changed)) {k : Constant} (hk : k.isKnown)
    (w : Place) : h.word w = some k ↔ f.word w = some k ∧ g.word w = some k := by
  rw [word_of_merge rfl hm]
  cases f.word w with
  | none => simp
  | some a =>
    cases g.word w with
    | none => simp
    | some b => simp [Constant.join_eq_known hk]

theorem covers_of_merge (hm : f.merge Constant.join g = .ok (h, changed)) : h.Covers f ∧ h.Covers g := by
  obtain ⟨hfg, hhf⟩ := depth_of_merge hm
  exact ⟨⟨hhf, fun w _ hk hw => ((known_of_merge hm hk w).mp hw).1⟩,
    ⟨hhf.trans hfg, fun w _ hk hw => ((known_of_merge hm hk w).mp hw).2⟩⟩

theorem Tight.merge {P : Frame Constant → Prop} (hf : Tight P f) (hg : Tight P g)
    (hm : f.merge Constant.join g = .ok (h, changed)) : Tight P h :=
  fun w k hk hall => (known_of_merge hm hk w).mpr ⟨hf w k hk hall, hg w k hk hall⟩

end

/-! ## Running instructions -/

section
variable (c : Code) (pool : Pool)

def run : List Nat → Frame Constant → Except AnalysisError (Frame Constant)
  | [], f => .ok f
  | i :: is, f =>
    match c.body[i]? with
    | none => run is f
    | some h =>
      match f.execute pool h with
      | .error e => .error e
      | .ok f' => run is f'

variable {c pool}

theorem execute_eq_ok {h : Placed} {f f' : Frame Constant} (hx : f.execute pool h = .ok f') :
    ∃ e, h.instruction.effect pool = .ok e ∧ e.demand ≤ f.depth ∧ Moved Eq e f f' := by
  unfold execute at hx
  split at hx
  · cases hx
  · rename_i e he
    obtain ⟨hd, hm⟩ := transfer_eq_ok hx
    exact ⟨e, he, hd, hm.of_seek⟩

theorem execute_of_effect {h : Placed} {e : Effect} (he : h.instruction.effect pool = .ok e)
    {f : Frame Constant} (hd : e.demand ≤ f.depth) : ∃ f', f.execute pool h = .ok f' := by
  obtain ⟨f', hf', -⟩ := transfer_of_le (f := f.seek h.position) hd
  exact ⟨f', by rw [execute, he]; exact hf'⟩

theorem run_cons {i : Nat} {is : List Nat} {h : Placed} {f f' : Frame Constant} (hb : c.body[i]? = some h) :
    run c pool (i :: is) f = .ok f' ↔ ∃ f₁, f.execute pool h = .ok f₁ ∧ run c pool is f₁ = .ok f' := by
  simp only [run, hb]
  split
  · rename_i he
    simp [he]
  · rename_i f₁ he
    simp [he]

/-- A relation that every instruction carries along is carried along by a run. -/
theorem run_rel {R : Frame Constant → Frame Constant → Prop}
    (step : ∀ {e f g f' g'}, R f g → Moved Eq e f f' → Moved Eq e g g' → R f' g')
    (depth : ∀ {f g}, R f g → f.depth = g.depth) :
    ∀ {is : List Nat} {f g f' : Frame Constant}, R f g → run c pool is f = .ok f' →
      ∃ g', run c pool is g = .ok g' ∧ R f' g'
  | [], f, g, f', hr, hf => by
    cases hf
    exact ⟨g, rfl, hr⟩
  | i :: is, f, g, f', hr, hf => by
    cases hb : c.body[i]? with
    | none =>
      simp only [run, hb] at hf ⊢
      exact run_rel step depth hr hf
    | some h =>
      obtain ⟨f₁, hf₁, hf⟩ := (run_cons hb).mp hf
      obtain ⟨e, he, hd, hm⟩ := execute_eq_ok hf₁
      obtain ⟨g₁, hg₁⟩ := execute_of_effect he (f := g) (depth hr ▸ hd)
      obtain ⟨e', he', -, hm'⟩ := execute_eq_ok hg₁
      rw [he] at he'
      cases he'
      obtain ⟨g', hg', hr'⟩ := run_rel step depth (step hr hm hm') hf
      exact ⟨g', (run_cons hb).mpr ⟨g₁, hg₁, hg'⟩, hr'⟩

theorem effect_of_run {is : List Nat} {f f' : Frame Constant} (hr : run c pool is f = .ok f') {i : Nat}
    (hi : i ∈ is) {h : Placed} (hb : c.body[i]? = some h) : ∃ e, h.instruction.effect pool = .ok e := by
  induction is generalizing f with
  | nil => cases hi
  | cons j is ih =>
    cases hj : c.body[j]? with
    | none =>
      simp only [run, hj] at hr
      refine ih hr ((List.mem_cons.mp hi).resolve_left fun h => ?_)
      rw [← h, hb] at hj; cases hj
    | some h' =>
      obtain ⟨f₁, hx, hr⟩ := (run_cons hj).mp hr
      rcases List.mem_cons.mp hi with rfl | hi
      · rw [hb] at hj
        cases hj
        obtain ⟨e, he, -, -⟩ := execute_eq_ok hx
        exact ⟨e, he⟩
      · exact ih hr hi

theorem run_congr {is : List Nat} {f g f' : Frame Constant} (hw : f.word = g.word)
    (hf : run c pool is f = .ok f') : ∃ g', run c pool is g = .ok g' ∧ f'.word = g'.word :=
  run_rel (R := fun f g => f.word = g.word) (fun hw hf hg => hf.congr hg hw) depth_congr hw hf

theorem Covers.run {is : List Nat} {f g f' : Frame Constant} (hc : f.Covers g)
    (hf : run c pool is f = .ok f') : ∃ g', Frame.run c pool is g = .ok g' ∧ f'.Covers g' :=
  run_rel (R := Covers) (fun hc hf hg => hf.covers hg hc) Covers.depth hc hf

theorem run_append {is js : List Nat} {f f' : Frame Constant} :
    run c pool (is ++ js) f = .ok f' ↔ ∃ p, run c pool is f = .ok p ∧ run c pool js p = .ok f' := by
  induction is generalizing f with
  | nil => simp [run]
  | cons i is ih =>
    simp only [List.cons_append, run]
    split
    · exact ih
    · split
      · simp
      · exact ih

theorem Tight.run {P Q : Frame Constant → Prop} {is : List Nat} {f f' : Frame Constant} (hne : ∃ g, P g)
    (hpq : ∀ g, P g → ∃ g', Q g' ∧ Frame.run c pool is g = .ok g') (ht : Tight P f)
    (hf : Frame.run c pool is f = .ok f') : Tight Q f' := by
  induction is generalizing P f with
  | nil =>
    cases hf
    refine fun w k hk hall => ht w k hk fun g hg => ?_
    obtain ⟨g', hq, hr⟩ := hpq g hg
    cases hr
    exact hall g hq
  | cons i is ih =>
    cases hb : c.body[i]? with
    | none =>
      simp only [Frame.run, hb] at hf hpq
      exact ih hne hpq ht hf
    | some h =>
      obtain ⟨f₁, hx, hf⟩ := (run_cons hb).mp hf
      obtain ⟨e, he, -, hm⟩ := execute_eq_ok hx
      -- the frames of `P` after the first instruction
      let P₁ : Frame Constant → Prop := fun g₁ => ∃ g, P g ∧ g.execute pool h = .ok g₁
      have hpp : ∀ g, P g → ∃ g₁, P₁ g₁ ∧ Moved Eq e g g₁ := by
        intro g hg
        obtain ⟨g', -, hr⟩ := hpq g hg
        obtain ⟨g₁, hx₁, -⟩ := (run_cons hb).mp hr
        obtain ⟨e', he', -, hm'⟩ := execute_eq_ok hx₁
        rw [he] at he'
        cases he'
        exact ⟨g₁, ⟨g, hg, hx₁⟩, hm'⟩
      have hne₁ : ∃ g₁, P₁ g₁ := by
        obtain ⟨g, hg⟩ := hne
        obtain ⟨g₁, hg₁, -⟩ := hpp g hg
        exact ⟨g₁, hg₁⟩
      refine ih hne₁ ?_ (hm.tight hne hpp ht) hf
      rintro g₁ ⟨g, hg, hx₁⟩
      obtain ⟨g', hq, hr⟩ := hpq g hg
      obtain ⟨g₂, hx₂, hr⟩ := (run_cons hb).mp hr
      rw [hx₁] at hx₂
      cases hx₂
      exact ⟨g', hq, hr⟩

end

end Frame

end SinkCheck
