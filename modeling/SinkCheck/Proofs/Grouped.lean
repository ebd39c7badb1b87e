import Mathlib
import SinkCheck.Report
import SinkCheck.Proofs.Fingerprint

/-!
# Findings by type

The text report writes the findings as a stable sort by type leaves them, with one header in front of each type.
That rests on what is asked of the grouping and the sorting it uses, and on nothing else about them. Types are
compared by their bytes. That is the order of their characters: an encoding that is longer starts with a larger
byte, and two of one length differ first where the characters do.
-/

namespace SinkCheck

/-! ## Byte order -/

def bytesOf (s : String) : List UInt8 :=
  s.toUTF8.toList

theorem bytesOf_eq (s : String) : bytesOf s = s.toList.flatMap String.utf8EncodeChar := by
  rw [bytesOf, ByteArray.toList, toList_loop, String.toUTF8_eq_toByteArray, ← String.utf8Encode_toList,
    List.utf8Encode, List.data_toByteArray]
  simp

/-- The first byte that differs decides, whatever follows the two characters. -/
theorem utf8EncodeChar_lt {c d : Char} (h : c < d) (u v : List UInt8) :
    String.utf8EncodeChar c ++ u < String.utf8EncodeChar d ++ v := by
  have hlt : c.val.toNat < d.val.toNat := h
  have hd : d.val.toNat < 0x110000 := by
    have := d.valid
    simp only [UInt32.isValidChar, Nat.isValidChar] at this
    omega
  -- six bits a byte: the larger shifts are repetitions of the smallest
  have h12 : ∀ n : Nat, n / 4096 = n / 64 / 64 := by omega
  have h18 : ∀ n : Nat, n / 262144 = n / 64 / 64 / 64 := by omega
  simp only [String.utf8EncodeChar]
  split_ifs <;> try omega
  all_goals
    simp only [List.cons_append, List.nil_append, List.cons_lt_cons_iff, UInt8.lt_iff_toNat_lt, ← UInt8.toNat_inj,
      UInt8.toNat_ofNat', h12, h18]
    omega

theorem flatMap_utf8EncodeChar_lt {s t : List Char} (h : s < t) :
    s.flatMap String.utf8EncodeChar < t.flatMap String.utf8EncodeChar := by
  induction h with
  | @nil c t =>
    rw [List.flatMap_nil, List.flatMap_cons]
    cases hc : String.utf8EncodeChar c with
    | nil => exact absurd hc String.utf8EncodeChar_ne_nil
    | cons x xs => exact List.nil_lt_cons _ _
  | rel h =>
    rw [List.flatMap_cons, List.flatMap_cons]
    exact utf8EncodeChar_lt h _ _
  | cons _ ih =>
    rw [List.flatMap_cons, List.flatMap_cons]
    exact List.append_left_lt ih

theorem bytesOf_lt {s t : String} : bytesOf s < bytesOf t ↔ s < t := by
  have hlt : ∀ {s t : String}, s < t → bytesOf s < bytesOf t := by
    intro s t h
    rw [bytesOf_eq, bytesOf_eq]
    exact flatMap_utf8EncodeChar_lt (String.lt_iff_toList_lt.mp h)
  refine ⟨fun h => ?_, hlt⟩
  rcases lt_trichotomy s t with hst | rfl | hst
  · exact hst
  · exact absurd h (List.lt_irrefl _)
  · exact absurd h (List.lt_asymm (hlt hst))

theorem bytesOf_le {s t : String} : bytesOf s ≤ bytesOf t ↔ s ≤ t := by
  rw [← not_lt, ← bytesOf_lt]
  rfl

/-! ## Stable sorting -/

namespace Finding

def typeLE (f g : Finding) : Bool :=
  decide (bytesOf f.bugType ≤ bytesOf g.bugType)

def ofType (fs : List Finding) (t : String) : List Finding :=
  fs.filter (·.bugType = t)

section
variable {fs gs : List Finding} {f g : Finding} {t u : String}

theorem typeLE_iff : f.typeLE g = true ↔ f.bugType ≤ g.bugType := by
  rw [typeLE, decide_eq_true_iff, bytesOf_le]

theorem mem_ofType : f ∈ ofType fs t ↔ f ∈ fs ∧ f.bugType = t := by
  simp [ofType]

theorem ofType_append : ofType (fs ++ gs) t = ofType fs t ++ ofType gs t :=
  List.filter_append _ _

theorem ofType_cons_self : ofType (f :: fs) f.bugType = f :: ofType fs f.bugType :=
  List.filter_cons_of_pos (by simp)

theorem ofType_cons_of_ne (h : f.bugType ≠ t) : ofType (f :: fs) t = ofType fs t :=
  List.filter_cons_of_neg (by simpa using h)

theorem ofType_ofType : ofType (ofType fs t) u = if t = u then ofType fs t else [] := by
  split
  · rename_i h
    subst h
    simp [ofType]
  · rename_i h
    apply List.filter_eq_nil_iff.mpr
    intro f hf
    rw [(mem_ofType.mp hf).2]
    simpa using h

theorem mem_iff_of_ofType (h : ∀ t, ofType fs t = ofType gs t) : f ∈ fs ↔ f ∈ gs := by
  have := congrArg (f ∈ ·) (h f.bugType)
  simpa [mem_ofType] using this

/-- What a list that ascends by type holds of each type determines it. -/
theorem eq_of_ofType (hf : fs.Pairwise (·.bugType ≤ ·.bugType)) (hg : gs.Pairwise (·.bugType ≤ ·.bugType))
    (h : ∀ t, ofType fs t = ofType gs t) : fs = gs := by
  induction fs generalizing gs with
  | nil =>
    cases gs with
    | nil => rfl
    | cons g gs => exact absurd ((mem_iff_of_ofType h).mpr List.mem_cons_self) List.not_mem_nil
  | cons f fs ih =>
    cases gs with
    | nil => exact absurd ((mem_iff_of_ofType h).mp List.mem_cons_self) List.not_mem_nil
    | cons g gs =>
      rw [List.pairwise_cons] at hf hg
      -- each head is the least of its list, so the two are of one type
      have hfg : f.bugType ≤ g.bugType := by
        rcases List.mem_cons.mp ((mem_iff_of_ofType h).mpr List.mem_cons_self) with rfl | hg'
        · exact le_rfl
        · exact hf.1 g hg'
      have hgf : g.bugType ≤ f.bugType := by
        rcases List.mem_cons.mp ((mem_iff_of_ofType h).mp List.mem_cons_self) with rfl | hf'
        · exact le_rfl
        · exact hg.1 f hf'
      have hhead := h f.bugType
      rw [ofType_cons_self, le_antisymm hfg hgf, ofType_cons_self] at hhead
      obtain ⟨rfl, -⟩ := List.cons.inj hhead
      rw [ih hf.2 hg.2]
      intro t
      have ht := h t
      by_cases hft : f.bugType = t
      · subst hft
        rw [ofType_cons_self, ofType_cons_self] at ht
        exact (List.cons.inj ht).2
      · rwa [ofType_cons_of_ne hft, ofType_cons_of_ne hft] at ht

theorem typeLE_trans (f g k : Finding) (hfg : f.typeLE g = true) (hgk : g.typeLE k = true) : f.typeLE k = true :=
  typeLE_iff.mpr (le_trans (typeLE_iff.mp hfg) (typeLE_iff.mp hgk))

theorem typeLE_total (f g : Finding) : (f.typeLE g || g.typeLE f) = true := by
  rw [Bool.or_eq_true, typeLE_iff, typeLE_iff]
  exact le_total _ _

theorem pairwise_mergeSort (fs : List Finding) : (fs.mergeSort typeLE).Pairwise (·.bugType ≤ ·.bugType) :=
  (List.pairwise_mergeSort typeLE_trans typeLE_total fs).imp typeLE_iff.mp

/-- Sorting keeps findings of one type in their order. -/
theorem ofType_mergeSort (fs : List Finding) (t : String) : ofType (fs.mergeSort typeLE) t = ofType fs t := by
  have hsub : (ofType fs t).Sublist (fs.mergeSort typeLE) := by
    apply List.sublist_mergeSort typeLE_trans typeLE_total _ List.filter_sublist
    apply List.pairwise_of_forall_mem_list
    intro f hf g hg
    rw [typeLE_iff, (mem_ofType.mp hf).2, (mem_ofType.mp hg).2]
  have hmine : (ofType fs t).Sublist (ofType (fs.mergeSort typeLE) t) := by
    have := hsub.filter (fun f => decide (f.bugType = t))
    change (ofType (ofType fs t) t).Sublist _ at this
    rwa [ofType_ofType, if_pos rfl] at this
  have hlength : (ofType (fs.mergeSort typeLE) t).length = (ofType fs t).length :=
    ((List.mergeSort_perm fs typeLE).filter _).length_eq
  exact (hmine.eq_of_length hlength.symm).symm

end

end Finding

/-! ## Grouping and sorting -/

namespace Collections

/-- The groups are the findings of each key in their order, with no group for a key that none has. -/
structure GroupedBy (key : Finding → String) (fs : List Finding) (groups : List (String × List Finding)) : Prop where
  distinct : (groups.map Prod.fst).Nodup
  group : ∀ t g, (t, g) ∈ groups ↔ g = fs.filter (key · = t) ∧ g ≠ []

/-- What a report asks of grouping and sorting. The groups may come in any order. -/
structure Lawful (k : Collections) : Prop where
  grouped : ∀ key fs, GroupedBy key fs (k.groupBy key fs)
  sort_perm : ∀ ts, (k.sort ts).Perm ts
  sort_ascending : ∀ ts, (k.sort ts).Pairwise (bytesOf · ≤ bytesOf ·)

section
variable {key : Finding → String} {fs : List Finding} {groups : List (String × List Finding)} {t u : String}
  {f : Finding} {g : List Finding}

theorem GroupedBy.lookup (h : GroupedBy key fs groups) (t : String) :
    (groups.lookup t).getD [] = fs.filter (key · = t) := by
  cases hg : groups.lookup t with
  | none =>
    -- a finding with this key would have a group
    by_contra hne
    have hmem := (h.group t _).mpr ⟨rfl, Ne.symm hne⟩
    simpa using List.lookup_eq_none_iff.mp hg _ hmem
  | some g =>
    obtain ⟨front, back, rfl, -⟩ := List.lookup_eq_some_iff.mp hg
    exact ((h.group t g).mp (by simp)).1

theorem GroupedBy.mem_keys (h : GroupedBy key fs groups) : t ∈ groups.map Prod.fst ↔ ∃ f ∈ fs, key f = t := by
  rw [List.mem_map]
  constructor
  · rintro ⟨⟨u, g⟩, hmem, rfl⟩
    obtain ⟨rfl, hne⟩ := (h.group u g).mp hmem
    obtain ⟨f, hf⟩ := List.exists_mem_of_ne_nil _ hne
    exact ⟨f, by simpa using hf⟩
  · rintro ⟨f, hf, hkey⟩
    have hne : fs.filter (key · = t) ≠ [] := List.ne_nil_of_mem (List.mem_filter.mpr ⟨hf, by simpa using hkey⟩)
    exact ⟨(t, _), (h.group t _).mpr ⟨rfl, hne⟩, rfl⟩

theorem keys_push : (push t f groups).map Prod.fst =
    if t ∈ groups.map Prod.fst then groups.map Prod.fst else groups.map Prod.fst ++ [t] := by
  induction groups with
  | nil => simp [push]
  | cons p groups ih =>
    obtain ⟨u, g⟩ := p
    by_cases h : u = t
    · simp [push, h]
    · simp only [push, h, if_false, List.map_cons, ih, List.mem_cons, Ne.symm h, false_or]
      split <;> rfl

theorem mem_push (hd : (groups.map Prod.fst).Nodup) : (u, g) ∈ push t f groups ↔
    u ≠ t ∧ (u, g) ∈ groups ∨ u = t ∧ g = (groups.lookup t).getD [] ++ [f] := by
  induction groups with
  | nil => simp [push]
  | cons p groups ih =>
    obtain ⟨v, vs⟩ := p
    rw [List.map_cons, List.nodup_cons] at hd
    have ih := ih hd.2
    by_cases h : v = t
    · subst h
      have hfresh : (u, g) ∈ groups → u ≠ v := by
        rintro hmem rfl
        exact hd.1 (List.mem_map.mpr ⟨_, hmem, rfl⟩)
      simp only [push, if_true, List.mem_cons, Prod.mk.injEq, List.lookup_cons_self, Option.getD_some]
      tauto
    · have hlookup : ((v, vs) :: groups).lookup t = groups.lookup t := by
        rw [List.lookup_cons, beq_false_of_ne (Ne.symm h)]
      simp only [push, h, if_false, List.mem_cons, Prod.mk.injEq, hlookup, ih]
      constructor
      · rintro (⟨rfl, rfl⟩ | ⟨hne, hmem⟩ | hlast)
        · exact .inl ⟨h, .inl ⟨rfl, rfl⟩⟩
        · exact .inl ⟨hne, .inr hmem⟩
        · exact .inr hlast
      · rintro (⟨hne, hhead | hmem⟩ | hlast)
        · exact .inl hhead
        · exact .inr (.inl ⟨hne, hmem⟩)
        · exact .inr (.inr hlast)

theorem GroupedBy.push (h : GroupedBy key fs groups) (f : Finding) :
    GroupedBy key (fs ++ [f]) (Collections.push (key f) f groups) where
  distinct := by
    rw [keys_push]
    split
    · exact h.distinct
    · rename_i hnew
      exact List.nodup_append_comm.mp (List.nodup_cons.mpr ⟨hnew, h.distinct⟩)
  group t g := by
    rw [mem_push h.distinct, h.lookup, List.filter_append, h.group]
    by_cases ht : t = key f
    · subst ht
      have hlast : [f].filter (key · = key f) = [f] := by simp
      rw [hlast]
      constructor
      · rintro (⟨hne, -⟩ | ⟨-, rfl⟩)
        · exact absurd rfl hne
        · exact ⟨rfl, by simp⟩
      · rintro ⟨rfl, -⟩
        exact .inr ⟨rfl, rfl⟩
    · simp [ht, Ne.symm ht]

theorem standard_grouped (key : Finding → String) (fs : List Finding) :
    GroupedBy key fs (standard.groupBy key fs) := by
  induction fs using List.reverseRecOn with
  | nil => exact ⟨List.nodup_nil, fun t g => by simp [standard]⟩
  | append_singleton fs f ih =>
    have hstep : standard.groupBy key (fs ++ [f]) = Collections.push (key f) f (standard.groupBy key fs) := by
      simp [standard]
    rw [hstep]
    exact ih.push f

theorem standard_lawful : standard.Lawful where
  grouped := standard_grouped
  sort_perm ts := List.mergeSort_perm ts _
  sort_ascending ts := by
    have htrans : ∀ t u v : String, decide (t ≤ u) = true → decide (u ≤ v) = true → decide (t ≤ v) = true := by
      simpa using fun t u v : String => le_trans
    have htotal : ∀ t u : String, (decide (t ≤ u) || decide (u ≤ t)) = true := by
      simpa using fun t u : String => le_total t u
    exact (List.pairwise_mergeSort htrans htotal ts).imp fun h => bytesOf_le.mpr (of_decide_eq_true h)

end

end Collections

/-! ## Types in order -/

namespace Report

def types (k : Collections) (fs : List Finding) : List String :=
  k.sort ((k.groupBy Finding.bugType fs).map Prod.fst)

section
variable {k : Collections} {fs : List Finding} {t u : String} {ts : List String}

theorem mem_types (hk : k.Lawful) : t ∈ types k fs ↔ ∃ f ∈ fs, f.bugType = t := by
  rw [types, (hk.sort_perm _).mem_iff, (hk.grouped _ _).mem_keys]

theorem pairwise_types (hk : k.Lawful) (fs : List Finding) : (types k fs).Pairwise (· < ·) := by
  have hdistinct : (types k fs).Nodup := (hk.sort_perm _).nodup_iff.mpr (hk.grouped _ fs).distinct
  exact (hdistinct.and (hk.sort_ascending _)).imp fun h => lt_of_le_of_ne (bytesOf_le.mp h.2) h.1

theorem ofType_flatMap (hts : ts.Nodup) :
    Finding.ofType (ts.flatMap (Finding.ofType fs)) u = if u ∈ ts then Finding.ofType fs u else [] := by
  induction ts with
  | nil => rfl
  | cons t ts ih =>
    rw [List.nodup_cons] at hts
    rw [List.flatMap_cons, Finding.ofType_append, Finding.ofType_ofType, ih hts.2]
    by_cases htu : t = u
    · subst htu
      simp [hts.1]
    · simp [htu, Ne.symm htu]

/-- The groups in the order of their types are what a stable sort makes of the findings. -/
theorem flatMap_types (hk : k.Lawful) (fs : List Finding) :
    (types k fs).flatMap (Finding.ofType fs) = fs.mergeSort Finding.typeLE := by
  apply Finding.eq_of_ofType
  · rw [List.pairwise_flatMap]
    constructor
    · intro t _
      apply List.pairwise_of_forall_mem_list
      intro f hf g hg
      rw [(Finding.mem_ofType.mp hf).2, (Finding.mem_ofType.mp hg).2]
    · refine (pairwise_types hk fs).imp fun htu f hf g hg => ?_
      rw [(Finding.mem_ofType.mp hf).2, (Finding.mem_ofType.mp hg).2]
      exact htu.le
  · exact Finding.pairwise_mergeSort fs
  · intro t
    rw [ofType_flatMap ((pairwise_types hk fs).imp ne_of_lt), Finding.ofType_mergeSort]
    split
    · rfl
    · rename_i ht
      symm
      apply List.eq_nil_iff_forall_not_mem.mpr
      intro f hf
      exact ht ((mem_types hk).mpr ⟨f, Finding.mem_ofType.mp hf⟩)

end

/-! ## The text -/

inductive Row where
  | header (bugType : String) (count : Nat)
  | finding (f : Finding)

namespace Row

def render : Row → String
  | header t n => t ++ " (" ++ toString n ++ " findings)\n"
  | finding f => "  " ++ f.id ++ " " ++ f.short ++ "\n"

def header? : Row → Option (String × Nat)
  | header t n => some (t, n)
  | finding _ => none

def finding? : Row → Option Finding
  | header _ _ => none
  | finding f => some f

end Row

def written (es : List Row) (s : Summary) : String :=
  String.join (["INJECTION REPORT\n", String.ofList (List.replicate 60 '=' ++ ['\n'])] ++ es.map Row.render ++
    [s!"Total Findings: {s.total}\n", s!"  High: {s.high}\n", s!"  Low:  {s.low}\n"])

def Headed (above : List Row) (f : Finding) : Prop :=
  ∃ (front : List Row) (n : Nat) (peers : List Finding),
    above = front ++ .header f.bugType n :: peers.map .finding ∧ ∀ g ∈ peers, g.bugType = f.bugType

structure Grouped (fs : List Finding) (es : List Row) (s : Summary) : Prop where
  findings : es.filterMap Row.finding? = fs.mergeSort Finding.typeLE
  once : (es.filterMap Row.finding?).Perm fs
  stable : ∀ t, Finding.ofType (es.filterMap Row.finding?) t = Finding.ofType fs t
  headers : ∀ t n, .header t n ∈ es ↔ (∃ f ∈ fs, f.bugType = t) ∧ n = (Finding.ofType fs t).length
  ascending : (es.filterMap Row.header?).Pairwise fun p q => bytesOf p.1 < bytesOf q.1
  headed : ∀ above f below, es = above ++ .finding f :: below → Headed above f
  high : s.high = fs.countP (·.priority = .high)
  low : s.low = fs.countP (·.priority = .low)
  total : s.total = s.high + s.low
  counted : s.total = ((es.filterMap Row.header?).map Prod.snd).sum

def rowsOf (fs : List Finding) (t : String) : List Row :=
  .header t (Finding.ofType fs t).length :: (Finding.ofType fs t).map .finding

def rows (k : Collections) (fs : List Finding) : List Row :=
  (types k fs).flatMap (rowsOf fs)

section
variable {k : Collections} (hk : k.Lawful) (fs : List Finding) (ts : List String)

include hk in
theorem text_eq_written : text k fs = written (rows k fs) (Summary.ofFindings fs) := by
  have hgroup : ∀ t, (rowsOf fs t).map Row.render =
      group t (((k.groupBy Finding.bugType fs).lookup t).getD []) := by
    intro t
    rw [(hk.grouped _ fs).lookup, rowsOf, List.map_cons, List.map_map]
    rfl
  simp only [text, written, rows, types, List.map_flatMap, hgroup]

theorem finding?_rowsOf (t : String) : (rowsOf fs t).filterMap Row.finding? = Finding.ofType fs t := by
  rw [rowsOf, List.filterMap_cons_none rfl, List.filterMap_map]
  exact List.filterMap_some

theorem header?_rowsOf (t : String) :
    (rowsOf fs t).filterMap Row.header? = [(t, (Finding.ofType fs t).length)] := by
  have hnone : ((Finding.ofType fs t).map Row.finding).filterMap Row.header? = [] := by
    simp [Row.header?]
  rw [rowsOf, List.filterMap_cons, hnone]
  rfl

include hk in
theorem findings_rows : (rows k fs).filterMap Row.finding? = fs.mergeSort Finding.typeLE := by
  rw [rows, List.filterMap_flatMap, ← flatMap_types hk]
  simp only [finding?_rowsOf]

theorem headers_rows : (rows k fs).filterMap Row.header? =
    (types k fs).map fun t => (t, (Finding.ofType fs t).length) := by
  rw [rows, List.filterMap_flatMap, List.map_eq_flatMap]
  simp only [header?_rowsOf]

include hk in
theorem header_mem_rows (t : String) (n : Nat) : .header t n ∈ rows k fs ↔
    (∃ f ∈ fs, f.bugType = t) ∧ n = (Finding.ofType fs t).length := by
  simp only [rows, rowsOf, List.mem_flatMap, List.mem_cons, List.mem_map, mem_types hk]
  constructor
  · rintro ⟨u, hu, h | ⟨f, -, h⟩⟩
    · cases h
      exact ⟨hu, rfl⟩
    · cases h
  · rintro ⟨ht, rfl⟩
    exact ⟨t, ht, .inl rfl⟩

theorem headed_of_rowsOf {t : String} {above below : List Row} {f : Finding}
    (h : rowsOf fs t = above ++ .finding f :: below) : Headed above f := by
  cases above with
  | nil => cases h
  | cons e above =>
    obtain ⟨rfl, hlines⟩ := List.cons.inj h
    obtain ⟨peers, rest, hsplit, rfl, hrest⟩ := List.map_eq_append_iff.mp hlines
    obtain ⟨g, rest', rfl, hg, -⟩ := List.map_eq_cons_iff.mp hrest
    cases hg
    have htype : ∀ g ∈ peers ++ f :: rest', g.bugType = t := by
      intro g hg
      exact (Finding.mem_ofType.mp (hsplit ▸ hg)).2
    refine ⟨[], (Finding.ofType fs t).length, peers, ?_, ?_⟩
    · rw [htype f (by simp)]
      rfl
    · intro g hg
      rw [htype f (by simp), htype g (by simp [hg])]

theorem headed_of_flatMap {above below : List Row} {f : Finding}
    (h : ts.flatMap (rowsOf fs) = above ++ .finding f :: below) : Headed above f := by
  induction ts generalizing above with
  | nil => simp at h
  | cons t ts ih =>
    rw [List.flatMap_cons, List.append_eq_append_iff] at h
    rcases h with ⟨above', rfl, hrest⟩ | ⟨middle, hgroup, hbelow⟩
    · obtain ⟨front, n, peers, rfl, hpeers⟩ := ih hrest
      exact ⟨rowsOf fs t ++ front, n, peers, by simp, hpeers⟩
    · cases middle with
      | nil =>
        have hrest : ts.flatMap (rowsOf fs) = [] ++ .finding f :: below := hbelow.symm
        obtain ⟨front, n, peers, hnil, -⟩ := ih hrest
        simp at hnil
      | cons e middle =>
        obtain ⟨rfl, -⟩ := List.cons.inj hbelow
        exact headed_of_rowsOf fs hgroup

include hk in
theorem length_eq_sum : fs.length = ((types k fs).map fun t => (Finding.ofType fs t).length).sum := by
  rw [← List.length_flatMap, flatMap_types hk, List.length_mergeSort]

theorem countP_high_add_low :
    fs.countP (·.priority = .high) + fs.countP (·.priority = .low) = fs.length := by
  induction fs with
  | nil => rfl
  | cons f fs ih =>
    cases hp : f.priority <;> simp [hp] <;> omega

end

/-- **The report is a stable grouping.** Its lines are the findings as a stable sort by type leaves them: each finding
once, those of a type in their order, under the one header of the type with their number. The headers ascend, and
the totals agree with them. -/
theorem text_grouped {k : Collections} (hk : k.Lawful) (fs : List Finding) :
    ∃ es s, text k fs = written es s ∧ Grouped fs es s := by
  refine ⟨rows k fs, Summary.ofFindings fs, text_eq_written hk fs, ?_⟩
  have hsum := countP_high_add_low fs
  exact {
    findings := findings_rows hk fs
    once := findings_rows hk fs ▸ List.mergeSort_perm fs _
    stable := fun t => by rw [findings_rows hk, Finding.ofType_mergeSort]
    headers := header_mem_rows hk fs
    ascending := by
      rw [headers_rows, List.pairwise_map]
      exact (pairwise_types hk fs).imp bytesOf_lt.mpr
    headed := fun _ _ _ h => headed_of_flatMap fs _ h
    high := rfl
    low := by
      simp only [Summary.ofFindings]
      omega
    total := by
      simp only [Summary.ofFindings]
      omega
    counted := by
      rw [headers_rows, List.map_map]
      exact length_eq_sum hk fs }

end Report

namespace Sample

def foundAt (position : Nat) (bugType : String) (priority : Priority) : Finding :=
  { id := "", bugType, priority, owner := "acme/Dao", method := "find", descriptor := "()V", position }

def found : List Finding :=
  [foundAt 7 "XPATH_INJECTION" .low, foundAt 3 "SQL_INJECTION" .high, foundAt 9 "XPATH_INJECTION" .high]

end Sample

/-- The two findings of one type come together under the second header, in their order. -/
theorem Report.found_grouped : ∃ es s, Collections.standard.Lawful ∧
    text .standard Sample.found = written es s ∧ .header "XPATH_INJECTION" 2 ∈ es ∧
    (Finding.ofType (es.filterMap Row.finding?) "XPATH_INJECTION").map Finding.position = [7, 9] ∧
    s.high = 2 ∧ s.low = 1 ∧ ((es.filterMap Row.header?).map Prod.snd).sum = 3 := by
  obtain ⟨es, s, htext, h⟩ := text_grouped Collections.standard_lawful Sample.found
  have hhigh : s.high = 2 := h.high
  have hlow : s.low = 1 := h.low
  refine ⟨es, s, Collections.standard_lawful, htext, (h.headers _ _).mpr ⟨⟨_, List.mem_cons_self .., rfl⟩, ?_⟩, ?_,
    hhigh, hlow, ?_⟩
  · decide
  · rw [h.stable]
    decide
  · rw [← h.counted, h.total, hhigh, hlow]

end SinkCheck
