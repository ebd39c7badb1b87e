import SinkCheck.Constant
import SinkCheck.Proofs.Places

/-!
# Where words come from

A word after an effect is given by the effect, or a copy of one word before it, and which of the two it
is depends neither on the frame nor on the kind of its cells. Constants and taint cells differ only in
the cells that may stand for a given constant.
-/

namespace SinkCheck

inductive Origin where
  | given (k : Constant)
  | copy (w : Place)

namespace Effect

/-- The words that must lie on the stack. A cast leaves the top word alone and asks for none. -/
def demand : Effect → Nat
  | .identity => 0
  | e => e.net.1

/-- The origins of the pushed words, from the top down. -/
def pushed : Effect → List Origin
  | .consume _ | .store .. | .increment _ | .identity | .arrayStore _ | .throw => []
  | .derive _ n | .fresh _ n | .readStatic _ n | .readField _ n => List.replicate n (.given .unknown)
  | .invoke call => List.replicate call.resultWords (.given .unknown)
  | .constant literal n => List.replicate n (.given (.ofLiteral literal))
  | .load slot n => (List.range' slot n).reverse.map fun i => .copy (.slot i)
  | .shuffle s => s.pattern.2.reverse.map fun j => .copy (.stack (s.pattern.1 - 1 - j))

def slotOrigin : Effect → Nat → Origin
  | .store slot n, i => if slot ≤ i ∧ i < slot + n then .copy (.stack (slot + n - 1 - i)) else .copy (.slot i)
  | .increment slot, i => if i = slot then .given .unknown else .copy (.slot i)
  | _, i => .copy (.slot i)

def origin (e : Effect) : Place → Origin
  | .stack d => e.pushed[d]?.getD (.copy (.stack (d - e.pushed.length + e.demand)))
  | .slot i => e.slotOrigin i

end Effect

section
variable {α : Type} [Inhabited α] (stands : Constant → α → Prop)

def Origin.Reads (f : Frame α) : Origin → Option α → Prop
  | .given k, x => ∃ a, x = some a ∧ stands k a
  | .copy w, x => x = f.word w

structure Frame.Moved (e : Effect) (f f' : Frame α) : Prop where
  depth : f'.depth + e.demand = f.depth + e.pushed.length
  word : ∀ w, (e.origin w).Reads stands f (f'.word w)

end

namespace Frame

section
variable {α : Type} [Inhabited α] {stands : Constant → α → Prop} {e : Effect} {f : Frame α}

theorem reads_pushed (cells : List α) (hl : cells.length = e.pushed.length)
    (hc : ∀ (d : Nat) (o : Origin), e.pushed[d]? = some o → o.Reads stands f cells[d]?) (d : Nat) :
    (e.origin (.stack d)).Reads stands f ((f.replaceTop e.demand cells).word (.stack d)) := by
  rw [Effect.origin]
  by_cases h : d < cells.length
  · have hp := List.getElem?_eq_getElem (hl ▸ h)
    rw [word_replaceTop_of_lt f h, hp]
    exact hc d _ hp
  · rw [word_replaceTop_of_le f (by omega), List.getElem?_eq_none (by omega), hl]
    rfl

theorem moved_replaceTop {cells : List α} (hd : e.demand ≤ f.depth)
    (hs : ∀ i, e.slotOrigin i = .copy (.slot i)) (hl : cells.length = e.pushed.length)
    (hc : ∀ (d : Nat) (o : Origin), e.pushed[d]? = some o → o.Reads stands f cells[d]?) :
    Moved stands e f (f.replaceTop e.demand cells) where
  depth := by rw [depth_replaceTop f hd, hl]
  word
    | .stack d => reads_pushed _ hl hc d
    | .slot i => by rw [Effect.origin, hs]; rfl

theorem moved_given {n : Nat} {k : Constant} {a : α} (hd : e.demand ≤ f.depth)
    (hs : ∀ i, e.slotOrigin i = .copy (.slot i)) (hp : e.pushed = List.replicate n (.given k)) (ha : stands k a) :
    Moved stands e f (f.replaceTop e.demand (List.replicate n a)) := by
  refine moved_replaceTop hd hs (by rw [hp, List.length_replicate, List.length_replicate]) fun d o ho => ?_
  rw [hp, List.getElem?_replicate] at ho
  split at ho
  · rename_i h
    cases ho
    exact ⟨a, by rw [List.getElem?_replicate, if_pos h], ha⟩
  · cases ho

theorem moved_copies (ws : List Place) {cells : List α} (hd : e.demand ≤ f.depth)
    (hs : ∀ i, e.slotOrigin i = .copy (.slot i)) (hp : e.pushed = ws.map .copy)
    (hc : cells.map some = ws.map f.word) : Moved stands e f (f.replaceTop e.demand cells) := by
  have hl : cells.length = ws.length := by simpa using congrArg List.length hc
  refine moved_replaceTop hd hs (by rw [hp, List.length_map, hl]) fun d o ho => ?_
  rw [hp, List.getElem?_map] at ho
  obtain ⟨w, hw, rfl⟩ := Option.map_eq_some_iff.mp ho
  have hget := congrArg (·[d]?) hc
  simp only [List.getElem?_map, hw, Option.map_some] at hget
  obtain ⟨a, ha, hx⟩ := Option.map_eq_some_iff.mp hget
  rw [ha]
  exact hx

theorem moved_load (slot n : Nat) : Moved stands (.load slot n) f (f.pushAll (f.load slot n)) := by
  refine moved_copies ((List.range' slot n).reverse.map .slot) (Nat.zero_le _) (fun _ => rfl) ?_ ?_
  · rw [List.map_map]; rfl
  · rw [load, List.map_reverse, List.map_map, List.map_map, ← List.map_reverse]
    rfl

theorem map_some_filterMap {α β : Type} {g : α → Option β} {l : List α} (h : ∀ a ∈ l, (g a).isSome) :
    (l.filterMap g).map some = l.map g := by
  induction l with
  | nil => rfl
  | cons a l ih =>
    obtain ⟨b, hb⟩ := Option.isSome_iff_exists.mp (h a (List.mem_cons_self ..))
    rw [List.filterMap_cons_some hb, List.map_cons, List.map_cons, hb,
      ih fun a ha => h a (List.mem_cons_of_mem _ ha)]

theorem moved_shuffle (s : Shuffle) (h : s.pattern.1 ≤ f.depth) :
    ∃ f', f.shuffle s = .ok f' ∧ Moved stands (.shuffle s) f f' := by
  have hget : ∀ j ∈ s.pattern.2, (f.stack.take s.pattern.1).reverse[j]? = f.word (.stack (s.pattern.1 - 1 - j)) :=
    fun j hj => getElem?_popped f h (Shuffle.lt_of_mem_pattern hj)
  have hp : f.popWords s.pattern.1 = _ := popWords_of_le f h
  simp only [shuffle, hp]
  refine ⟨_, rfl, moved_copies (s.pattern.2.reverse.map fun j => .stack (s.pattern.1 - 1 - j)) h
    (fun _ => rfl) ?_ ?_⟩
  · rw [List.map_map]; rfl
  · rw [List.map_reverse, map_some_filterMap, List.map_map, List.map_reverse]
    · exact congrArg List.reverse (List.map_congr_left hget)
    · intro j hj
      have := Shuffle.lt_of_mem_pattern hj
      rw [hget j hj, isSome_word_stack]
      omega

theorem moved_store (slot n : Nat) (h : n ≤ f.depth) :
    Moved stands (.store slot n) f ((f.replaceTop n []).store slot (f.stack.take n).reverse) where
  depth := depth_replaceTop f h []
  word
    | .stack d => reads_pushed (e := .store slot n) ([] : List α) rfl (fun _ _ ho => by cases ho) d
    | .slot i => by
      rw [word_store_slot, length_popped f h, Effect.origin, Effect.slotOrigin]
      split
      · rename_i hi
        rw [getElem?_popped f h (by omega), show n - 1 - (i - slot) = slot + n - 1 - i by omega]
        rfl
      · rfl

theorem Moved.of_seek {p : Nat} {f' : Frame α} (hm : Moved stands e (f.seek p) f') : Moved stands e f f' where
  depth := hm.depth
  word w := by
    have hw := hm.word w
    cases ho : e.origin w with
    | given k => rwa [ho] at hw
    | copy v =>
      rw [ho] at hw
      exact hw.trans (word_seek f p v)

theorem moved_identity : Moved stands .identity f f where
  depth := rfl
  word
    | .stack _ | .slot _ => rfl

end

end Frame

end SinkCheck
