import Mathlib.Data.List.Basic
import SinkCheck.Pool

/-!
# Indexes of a pool stay valid

A pool is only added to: an index keeps what it names while requests are answered. The slots of every pool that is
built from nothing are slot 0 and then the entries in order, each with the slots that it takes, so which entries were
added says all about the pool. The index of a new entry is the slot count, cut to 16 bits, and up to 65535 slots the
cut changes nothing.
-/

namespace SinkCheck

namespace Entry

def cells (e : Entry) : List (Option Entry) :=
  some e :: if e.isWide then [none] else []

def isNaN : Entry → Bool
  | .float x => x.isNaN
  | .double x => x.isNaN
  | _ => false

theorem same_of_isNaN {e : Entry} (h : e.isNaN = true) (a : Entry) : a.same e = false := by
  cases e with
  | float x => cases a <;> simp_all [isNaN, same, Binary32.same]
  | double x => cases a <;> simp_all [isNaN, same, Binary64.same]
  | _ => cases h

theorem filterMap_cells (e : Entry) : e.cells.filterMap id = [e] := by
  unfold cells
  by_cases h : e.isWide
  · simp [h]
  · simp [h]

/-- Behind an entry of two slots stands nothing. -/
theorem getElem?_succ_of_isWide {log : List Entry} {e : Entry} (hwide : e.isWide = true) {j : Nat}
    (h : (log.flatMap cells)[j]? = some (some e)) : (log.flatMap cells)[j + 1]? = some none := by
  induction log generalizing j with
  | nil => simp at h
  | cons a log ih =>
    rw [List.flatMap_cons] at h ⊢
    by_cases ha : a.isWide
    · have hcells : a.cells = [some a, none] := by simp [cells, ha]
      rw [hcells] at h ⊢
      match j with
      | 0 => simp
      | 1 => simp at h
      | j + 2 => exact ih (by simpa using h)
    · have hcells : a.cells = [some a] := by simp [cells, ha]
      rw [hcells] at h ⊢
      match j with
      | 0 =>
        simp only [List.cons_append, List.getElem?_cons_zero, Option.some.injEq] at h
        rw [h] at ha
        exact absurd hwide ha
      | j + 1 => exact ih (by simpa using h)

end Entry

namespace Pool

/-! ## Requests -/

inductive Request where
  | push (e : Entry)
  | intern (e : Entry)

def answer (p : Pool) : Request → UInt16 × Pool
  | .push e => p.push e
  | .intern e => p.intern e

def serve (p : Pool) (requests : List Request) : Pool :=
  requests.foldl (fun p r => (p.answer r).2) p

theorem serve_append (p : Pool) (before after : List Request) :
    p.serve (before ++ after) = (p.serve before).serve after :=
  List.foldl_append

def record (log : List Entry) : Request → List Entry
  | .push e => log ++ [e]
  | .intern e => if log.any (·.same e) then log else log ++ [e]

/-- How a request may be answered, from the pool before it: with an index and the pool after it. -/
inductive Answers (p : Pool) : Request → UInt16 × Pool → Prop
  | pushed {e : Entry} {i : UInt16} {q : Pool} (hget : q.get? i = some e) (hentries : q.entries = p.entries ++ [e]) :
    Answers p (.push e) (i, q)
  | found {e a : Entry} {i : UInt16} (hnumber : e.isNaN = false) (hget : p.get? i = some a) (hsame : a.same e = true)
    (hfirst : ∀ j < i, ∀ b, p.get? j = some b → b.same e = false) : Answers p (.intern e) (i, p)
  | appended {e : Entry} {i : UInt16} {q : Pool} (hnew : ∀ a ∈ p.entries, a.same e = false) (hget : q.get? i = some e)
    (hentries : q.entries = p.entries ++ [e]) : Answers p (.intern e) (i, q)

section
variable {p q : Pool} {e : Entry} {i : UInt16}

/-! ## One request -/

theorem reserved_cases (p : Pool) : (p.slots = #[] ∧ p.reserved.slots = #[none]) ∨ p.reserved = p := by
  unfold reserved
  by_cases h : p.slots.isEmpty
  · exact .inl ⟨Array.isEmpty_iff.mp h, by simp [h, empty]⟩
  · exact .inr (by simp [h])

theorem reserved_of_pos (h : 0 < p.size) : p.reserved = p := by
  rcases p.reserved_cases with ⟨hslots, -⟩ | hr
  · simp [size, hslots] at h
  · exact hr

theorem entries_reserved (p : Pool) : p.reserved.entries = p.entries := by
  rcases p.reserved_cases with ⟨h, hr⟩ | hr
  · simp [entries, h, hr]
  · rw [hr]

theorem get?_reserved (p : Pool) (i : UInt16) : p.reserved.get? i = p.get? i := by
  rcases p.reserved_cases with ⟨h, hr⟩ | hr
  · rw [get?, get?, h, hr]
    cases i.toNat with
    | zero => simp
    | succ n => simp
  · rw [hr]

theorem slots_push (p : Pool) (e : Entry) : (p.push e).2.slots.toList = p.reserved.slots.toList ++ e.cells := by
  unfold push Entry.cells
  by_cases h : e.isWide
  · simp [h]
  · simp [h]

theorem size_push (p : Pool) (e : Entry) : (p.push e).2.size = p.reserved.size + e.cells.length := by
  rw [size, ← Array.length_toList, slots_push, List.length_append]
  rfl

theorem reserved_push (p : Pool) (e : Entry) : (p.push e).2.reserved = (p.push e).2 := by
  apply reserved_of_pos
  rw [size_push, Entry.cells, List.length_cons]
  omega

theorem entries_push (p : Pool) (e : Entry) : (p.push e).2.entries = p.entries ++ [e] := by
  rw [entries, slots_push, List.filterMap_append, Entry.filterMap_cells, ← entries, entries_reserved]

theorem toNat_push (h : p.size ≤ 65535) : (p.push e).1.toNat = p.reserved.slots.size := by
  have hsize : p.reserved.slots.size < 65536 := by
    rcases p.reserved_cases with ⟨-, hr⟩ | hr
    · simp [hr]
    · rw [hr]
      exact Nat.lt_succ_of_le h
  exact Nat.mod_eq_of_lt hsize

theorem get?_eq (p : Pool) (i : UInt16) : p.get? i = p.slots.toList[i.toNat]?.join := by
  rw [get?, Array.getElem?_toList]

theorem get?_push (h : p.size ≤ 65535) : (p.push e).2.get? (p.push e).1 = some e := by
  rw [get?_eq, toNat_push h, slots_push, List.getElem?_append_right (by simp)]
  simp [Entry.cells]

theorem mem_entries : e ∈ p.entries ↔ some e ∈ p.slots := by
  simp [entries]

theorem intern_cases (p : Pool) (e : Entry) :
    (∃ (n : Nat) (a : Entry), n < p.size ∧ p.slots[n]? = some (some a) ∧ a.same e = true ∧
      (∀ m < n, ∀ b, p.slots[m]? = some (some b) → b.same e = false) ∧ p.intern e = (.ofNat n, p)) ∨
    ((∀ a ∈ p.entries, a.same e = false) ∧ p.intern e = p.push e) := by
  unfold intern
  cases hf : p.slots.findIdx? (fun slot => slot.any (·.same e)) with
  | none =>
    right
    refine ⟨?_, rfl⟩
    intro a ha
    exact Array.findIdx?_eq_none_iff.mp hf (some a) (mem_entries.mp ha)
  | some n =>
    left
    obtain ⟨hn, hsame, hfirst⟩ := Array.findIdx?_eq_some_iff_getElem.mp hf
    obtain ⟨a, ha, hsame⟩ := Option.any_eq_true _ _ |>.mp hsame
    refine ⟨n, a, hn, by rw [Array.getElem?_eq_getElem hn, ha], hsame, ?_, rfl⟩
    intro m hm b hb
    obtain ⟨hlt, hb⟩ := Array.getElem?_eq_some_iff.mp hb
    have hnot := hfirst m hm
    rw [hb] at hnot
    simpa using hnot

theorem answers_answer (h : p.size ≤ 65535) (r : Request) : p.Answers r (p.answer r) := by
  cases r with
  | push e => exact .pushed (get?_push h) (entries_push p e)
  | intern e =>
    rw [answer]
    rcases p.intern_cases e with ⟨n, a, hn, ha, hsame, hfirst, heq⟩ | ⟨hnew, heq⟩
    · have hindex : (UInt16.ofNat n).toNat = n := Nat.mod_eq_of_lt (by omega)
      rw [heq]
      refine .found ?_ ?_ hsame ?_
      · by_contra hnan
        rw [Entry.same_of_isNaN (by simpa using hnan)] at hsame
        cases hsame
      · rw [get?, hindex, ha]
        rfl
      · intro j hj b hb
        rw [UInt16.lt_iff_toNat_lt, hindex] at hj
        exact hfirst j.toNat hj b (Option.join_eq_some_iff.mp hb)
    · rw [heq]
      exact .appended hnew (get?_push h) (entries_push p e)

/-! ## Later requests -/

theorem prefix_push (p : Pool) (e : Entry) : p.slots.toList <+: (p.push e).2.slots.toList := by
  rw [slots_push]
  rcases p.reserved_cases with ⟨h, -⟩ | hr
  · simp [h]
  · rw [hr]
    exact List.prefix_append ..

theorem prefix_answer (p : Pool) (r : Request) : p.slots.toList <+: (p.answer r).2.slots.toList := by
  cases r with
  | push e => exact p.prefix_push e
  | intern e =>
    rw [answer]
    rcases p.intern_cases e with ⟨n, a, -, -, -, -, heq⟩ | ⟨-, heq⟩
    · simp [heq]
    · rw [heq]
      exact p.prefix_push e

theorem prefix_serve (p : Pool) (requests : List Request) : p.slots.toList <+: (p.serve requests).slots.toList := by
  induction requests generalizing p with
  | nil => exact List.prefix_refl _
  | cons r requests ih => exact (p.prefix_answer r).trans (ih (p.answer r).2)

theorem get?_of_prefix (h : p.slots.toList <+: q.slots.toList) (hget : p.get? i = some e) : q.get? i = some e := by
  rw [get?_eq, Option.join_eq_some_iff] at hget ⊢
  obtain ⟨hi, hslot⟩ := List.getElem?_eq_some_iff.mp hget
  rw [List.prefix_iff_getElem?.mp h i.toNat hi, hslot]

theorem Answers.get?_serve {r : Request} {x : UInt16 × Pool} (h : p.Answers r x) (after : List Request) :
    (x.2.serve after).get? x.1 = x.2.get? x.1 := by
  have hsome : ∃ e, x.2.get? x.1 = some e := by
    cases h with
    | pushed hget => exact ⟨_, hget⟩
    | found hnumber hget => exact ⟨_, hget⟩
    | appended hnew hget => exact ⟨_, hget⟩
  obtain ⟨e, he⟩ := hsome
  rw [he]
  exact get?_of_prefix (prefix_serve _ after) he

/-! ## The slots of a pool built from nothing -/

/-- Slot 0, taken or not, and then the entries of the log. -/
def Lists (p : Pool) (log : List Entry) : Prop :=
  p.reserved.slots.toList = none :: log.flatMap Entry.cells

variable {log : List Entry}

theorem lists_start (h : p = empty ∨ p = unreserved) : p.Lists [] := by
  rcases h with rfl | rfl
  · rfl
  · rfl

theorem Lists.entries (h : p.Lists log) : p.entries = log := by
  rw [← entries_reserved, Pool.entries, h, List.filterMap_cons_none rfl, List.filterMap_flatMap]
  simp only [Entry.filterMap_cells, List.flatMap_singleton']

theorem Lists.get? (h : p.Lists log) (i : UInt16) : p.get? i = (none :: log.flatMap Entry.cells)[i.toNat]?.join := by
  rw [← get?_reserved, get?_eq, h]

theorem Lists.push (h : p.Lists log) (e : Entry) : (p.push e).2.Lists (log ++ [e]) := by
  rw [Lists, reserved_push, slots_push, h]
  simp

theorem Lists.answer (h : p.Lists log) (r : Request) : (p.answer r).2.Lists (record log r) := by
  cases r with
  | push e => exact h.push e
  | intern e =>
    rw [Pool.answer, record]
    rcases p.intern_cases e with ⟨n, a, hn, ha, hsame, -, heq⟩ | ⟨hnew, heq⟩
    · have hany : log.any (·.same e) = true := by
        rw [← h.entries, List.any_eq_true]
        exact ⟨a, mem_entries.mpr (Array.mem_of_getElem? ha), hsame⟩
      rw [heq, if_pos hany]
      exact h
    · have hany : ¬ log.any (·.same e) = true := by
        rw [← h.entries]
        simpa using hnew
      rw [heq, if_neg hany]
      exact h.push e

theorem Lists.serve (h : p.Lists log) (requests : List Request) :
    (p.serve requests).Lists (requests.foldl record log) := by
  induction requests generalizing p log with
  | nil => exact h
  | cons r requests ih => exact ih (h.answer r)

theorem Lists.get?_zero (h : p.Lists log) : p.get? 0 = none := by
  rw [h.get?]
  rfl

theorem Lists.get?_succ (h : p.Lists log) (hwide : e.isWide = true) (hget : p.get? i = some e) :
    p.get? (i + 1) = none := by
  by_cases hi : i.toNat + 1 < 65536
  · have hnext : (i + 1).toNat = i.toNat + 1 := by
      rw [UInt16.toNat_add]
      exact Nat.mod_eq_of_lt hi
    rw [h.get?, Option.join_eq_some_iff] at hget
    rw [h.get?, hnext]
    cases hn : i.toNat with
    | zero => simp [hn] at hget
    | succ n =>
      rw [hn, List.getElem?_cons_succ] at hget
      rw [List.getElem?_cons_succ, Entry.getElem?_succ_of_isWide hwide hget]
      rfl
  · -- behind the last index the count begins again, at slot 0
    have hlast : i.toNat = 65535 := by
      have := i.toNat_lt
      omega
    have hwrap : i + 1 = 0 := by
      apply UInt16.toNat_inj.mp
      rw [UInt16.toNat_add, hlast]
      rfl
    rw [hwrap]
    exact h.get?_zero

end

/-- **Indexes stay valid.** While a pool built from nothing has no more than 65535 slots, the index for a pushed entry
names that entry, the index for an interned one names the first that is the same or else the entry, added anew, and
both go on naming what they name. Slot 0 and the slot behind a wide entry name nothing, and the pool lists the entries
that were added. -/
theorem indexes_stay_valid {start : Pool} (hstart : start = empty ∨ start = unreserved) (requests : List Request) :
    (∀ before r after, requests = before ++ r :: after → (start.serve before).size ≤ 65535 →
      ∃ i q, (start.serve before).answer r = (i, q) ∧ (start.serve before).Answers r (i, q) ∧
        (start.serve requests).get? i = q.get? i) ∧
    (start.serve requests).get? 0 = none ∧
    (∀ i e, (start.serve requests).get? i = some e → e.isWide = true → (start.serve requests).get? (i + 1) = none) ∧
    (start.serve requests).entries = requests.foldl record [] := by
  have hlists := (lists_start hstart).serve requests
  refine ⟨?_, hlists.get?_zero, fun i e hget hwide => hlists.get?_succ hwide hget, hlists.entries⟩
  rintro before r after rfl hroom
  have hanswer := answers_answer hroom r
  have hlater : start.serve (before ++ r :: after) = ((start.serve before).answer r).2.serve after :=
    start.serve_append before (r :: after)
  rw [hlater]
  exact ⟨_, _, rfl, hanswer, hanswer.get?_serve after⟩

end Pool

namespace Sample

def pushes (n : Nat) : List Pool.Request :=
  List.replicate n (.push (.utf8 "name"))

theorem size_pushes (n : Nat) : (Pool.unreserved.serve (pushes (n + 1))).size = n + 2 := by
  have hsucc : ∀ n, Pool.unreserved.serve (pushes (n + 1)) =
      ((Pool.unreserved.serve (pushes n)).push (.utf8 "name")).2 := by
    intro n
    rw [pushes, List.replicate_succ', Pool.serve_append]
    rfl
  induction n with
  | zero => rfl
  | succ n ih =>
    rw [hsucc, Pool.size_push, hsucc, Pool.reserved_push, ← hsucc, ih]
    rfl

def doubles : List Pool.Request :=
  [.intern (.double ⟨0x7ff8000000000000⟩), .intern (.double ⟨0x7ff8000000000000⟩), .intern (.double ⟨0⟩),
    .intern (.double ⟨0x8000000000000000⟩)]

end Sample

open Sample in
/-- The last index of a pool can be that of a wide entry: the slot behind it has none. What is no number is added each
time, and one zero stands for both. -/
theorem Pool.last_index_valid :
    (∃ q, (unreserved.serve (pushes 65534)).push (.long 7) = (65535, q) ∧ q.get? 65535 = some (.long 7) ∧
      q.get? (65535 + 1) = none) ∧
    (empty.serve doubles).entries =
      [.double ⟨0x7ff8000000000000⟩, .double ⟨0x7ff8000000000000⟩, .double ⟨0⟩] ∧
    (empty.serve doubles).get? 5 = some (.double ⟨0⟩) ∧ (empty.serve doubles).get? 6 = none := by
  have hsize : (unreserved.serve (pushes 65534)).size = 65535 := size_pushes 65533
  obtain ⟨hanswers, -, hbehind, -⟩ := indexes_stay_valid (.inr rfl) (pushes 65534 ++ [.push (.long 7)])
  obtain ⟨-, -, hnext, hentries⟩ := indexes_stay_valid (.inl rfl) doubles
  have hfive : (empty.serve doubles).get? 5 = some (.double ⟨0⟩) := by decide +kernel
  refine ⟨?_, hentries.trans (by decide +kernel), hfive, hnext 5 _ hfive rfl⟩
  obtain ⟨i, q, heq, hanswer, hkept⟩ := hanswers (pushes 65534) (.push (.long 7)) [] rfl (by omega)
  have hpush : (unreserved.serve (pushes 65534)).push (.long 7) = (i, q) := heq
  have hi : i = 65535 := by
    have hindex := toNat_push (e := .long 7) (Nat.le_of_eq hsize)
    rw [hpush, reserved_of_pos (by omega)] at hindex
    exact UInt16.toNat_inj.mp (hindex.trans hsize)
  subst hi
  have hfinal : unreserved.serve (pushes 65534 ++ [.push (.long 7)]) = q := by
    rw [serve_append]
    exact congrArg Prod.snd hpush
  rw [hfinal] at hbehind
  cases hanswer with
  | pushed hget => exact ⟨q, hpush, hget, hbehind 65535 _ hget rfl⟩

end SinkCheck
