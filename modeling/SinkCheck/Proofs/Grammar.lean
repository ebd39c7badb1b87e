import SinkCheck.Descriptor

/-!
# Descriptors as a grammar

Reading a descriptor undoes writing it, also in front of other text, and accepts nothing else. A class name
may hold any character but the semicolon that ends it, so the parenthesis that closes a parameter list is
recognised only where a type would start.
-/

namespace SinkCheck

/-! ## Field types -/

namespace FieldType

/-- Every class name in the type can be told from what follows it. -/
def Named : FieldType → Prop
  | .object name => name ≠ "" ∧ ';' ∉ name.toList
  | .array t => t.Named
  | _ => True

theorem chars_of_primitive {c : Char} {t : FieldType} (h : primitive? c = some t) : t.chars = [c] ∧ t.Named := by
  unfold primitive? at h
  split at h <;> cases h <;> exact ⟨rfl, trivial⟩

theorem split_name {s name tail : List Char} {x : Char} (hn : s.takeWhile (· ≠ ';') = name)
    (ht : s.dropWhile (· ≠ ';') = x :: tail) : s = name ++ ';' :: tail ∧ ';' ∉ name := by
  have hx : x = ';' := by
    have := List.head?_dropWhile_not (· ≠ ';') s
    rw [ht] at this
    simpa using this
  subst hx
  refine ⟨?_, ?_⟩
  · rw [← hn, ← ht, List.takeWhile_append_dropWhile]
  · intro hmem
    have := List.all_eq_true.mp List.all_takeWhile ';' (hn ▸ hmem)
    simp at this

theorem takeWhile_name {name : List Char} (h : ';' ∉ name) (tail : List Char) :
    (name ++ ';' :: tail).takeWhile (· ≠ ';') = name ∧ (name ++ ';' :: tail).dropWhile (· ≠ ';') = ';' :: tail := by
  have hpos : ∀ c ∈ name, decide (c ≠ ';') = true := by
    intro c hc
    have : c ≠ ';' := fun heq => h (heq ▸ hc)
    simpa using this
  rw [List.takeWhile_append_of_pos hpos, List.dropWhile_append_of_pos hpos]
  simp

theorem read_array {s rest : List Char} {t : FieldType} (h : read s = .ok (t, rest)) :
    read ('[' :: s) = .ok (.array t, rest) := by
  simp [read, primitive?, h]

theorem read_object {name : List Char} (hne : name ≠ []) (hfree : ';' ∉ name) (tail : List Char) :
    read ('L' :: (name ++ ';' :: tail)) = .ok (.object (String.ofList name), tail) := by
  obtain ⟨htake, hdrop⟩ := takeWhile_name hfree tail
  cases name with
  | nil => exact absurd rfl hne
  | cons n name =>
    simp only [read, primitive?, htake, hdrop]
    simp

theorem read_chars {t : FieldType} (h : t.Named) (rest : List Char) : read (t.chars ++ rest) = .ok (t, rest) := by
  induction t with
  | object name =>
    obtain ⟨hne, hfree⟩ := h
    have hname : name.toList ≠ [] := by simpa using hne
    simpa [chars] using read_object hname hfree rest
  | array t ih => exact read_array (ih h)
  | _ => rfl

theorem eq_chars_of_read {s rest : List Char} {t : FieldType} (h : read s = .ok (t, rest)) :
    s = t.chars ++ rest ∧ t.Named := by
  -- only an array reads on, and it does so in the tail
  induction s generalizing t with
  | nil => cases h
  | cons c s ih =>
    unfold read at h
    split at h
    · rename_i hp
      cases h
      obtain ⟨hc, hn⟩ := chars_of_primitive hp
      exact ⟨by rw [hc]; rfl, hn⟩
    · split at h
      · rename_i hc
        split at h
        · rename_i t' tail hr
          cases h
          obtain ⟨hs, hn⟩ := ih hr
          exact ⟨by rw [hc, hs]; rfl, hn⟩
        · cases h
      · split at h
        · rename_i hc
          split at h
          · rename_i n name x tail hn ht
            cases h
            obtain ⟨hs, hfree⟩ := split_name hn ht
            refine ⟨?_, ?_, ?_⟩
            · rw [hc, hs, chars, String.toList_ofList]
              simp
            · intro hempty
              have := congrArg String.toList hempty
              simp at this
            · rw [String.toList_ofList]
              exact hfree
          · cases h
        · cases h

theorem read_eq_ok {s rest : List Char} {t : FieldType} : read s = .ok (t, rest) ↔ s = t.chars ++ rest ∧ t.Named := by
  constructor
  · exact eq_chars_of_read
  · rintro ⟨rfl, hn⟩
    exact read_chars hn rest

/-- A failed read names a piece at the end of the text. -/
theorem piece_of_read {s : List Char} {e : AnalysisError} (h : read s = .error e) :
    ∃ piece, piece <:+ s ∧ e = .descriptor (String.ofList piece) := by
  induction s with
  | nil =>
    cases h
    exact ⟨[], List.suffix_refl _, rfl⟩
  | cons c s ih =>
    unfold read at h
    split at h
    · cases h
    · split at h
      · split at h
        · cases h
        · rename_i hr
          cases h
          obtain ⟨piece, hpiece, he⟩ := ih hr
          exact ⟨piece, hpiece.trans (List.suffix_cons c s), he⟩
      · split at h
        · split at h
          · cases h
          · cases h
            exact ⟨_, List.suffix_refl _, rfl⟩
        · cases h
          exact ⟨_, List.suffix_refl _, rfl⟩

theorem eq_render {s : String} {t : FieldType} : s = t.render ↔ s.toList = t.chars := by
  rw [render, ← String.toList_inj, String.toList_ofList]

theorem parse_eq_ok_iff_read {s : String} {t : FieldType} : parse s = .ok t ↔ read s.toList = .ok (t, []) := by
  unfold parse
  split <;> simp_all

theorem parse_eq_ok {s : String} {t : FieldType} : parse s = .ok t ↔ s = t.render ∧ t.Named := by
  rw [parse_eq_ok_iff_read, read_eq_ok, List.append_nil, eq_render]

theorem piece_of_parse {s : String} {e : AnalysisError} (h : parse s = .error e) :
    ∃ piece, piece <:+ s.toList ∧ e = .descriptor (String.ofList piece) := by
  unfold parse at h
  split at h
  · cases h
  · cases h
    exact ⟨s.toList, List.suffix_refl _, by rw [String.ofList_toList]⟩
  · rename_i hr
    cases h
    exact piece_of_read hr

theorem head?_chars (t : FieldType) (rest : List Char) : (t.chars ++ rest).head? ≠ some ')' := by
  cases t <;> simp [chars]

theorem chars_ne_void (t : FieldType) : t.chars ≠ ['V'] := by
  cases t <;> simp [chars]

end FieldType

/-! ## Method descriptors -/

namespace MethodDescriptor

def Named (d : MethodDescriptor) : Prop :=
  (∀ t ∈ d.parameters, t.Named) ∧ ∀ t ∈ d.result, t.Named

section
variable {text : String}

theorem readParameters_chars {ts : List FieldType} (h : ∀ t ∈ ts, t.Named) (rest : List Char) :
    readParameters text (ts.flatMap FieldType.chars ++ ')' :: rest) = .ok (ts, rest) := by
  induction ts with
  | nil =>
    unfold readParameters
    simp
  | cons t ts ih =>
    have hread := FieldType.read_chars (h t (by simp)) (ts.flatMap FieldType.chars ++ ')' :: rest)
    have htail := ih fun t' ht' => h t' (by simp [ht'])
    rw [List.flatMap_cons, List.append_assoc]
    unfold readParameters
    -- the first type hides any parenthesis in its name, it never starts with one
    rw [if_neg (FieldType.head?_chars t _), if_neg (by simp)]
    split
    · simp_all
    · simp_all

theorem eq_chars_of_readParameters {s rest : List Char} {ts : List FieldType}
    (h : readParameters text s = .ok (ts, rest)) :
    s = ts.flatMap FieldType.chars ++ ')' :: rest ∧ ∀ t ∈ ts, t.Named := by
  fun_induction readParameters text s generalizing ts with
  | case1 s hs =>
    cases h
    refine ⟨?_, by simp⟩
    cases s with
    | nil => simp at hs
    | cons c s => simpa using hs
  | case2 => cases h
  | case3 => cases h
  | case4 s hs hne t tail hr _ ts' rest' ht ih =>
    cases h
    obtain ⟨hs', hn⟩ := FieldType.read_eq_ok.mp hr
    obtain ⟨htail, hns⟩ := ih ht
    refine ⟨?_, ?_⟩
    · rw [hs', htail, List.flatMap_cons, List.append_assoc]
    · simpa using ⟨hn, hns⟩
  | case5 => cases h

theorem readParameters_eq_ok {s rest : List Char} {ts : List FieldType} : readParameters text s = .ok (ts, rest) ↔
    s = ts.flatMap FieldType.chars ++ ')' :: rest ∧ ∀ t ∈ ts, t.Named := by
  constructor
  · exact eq_chars_of_readParameters
  · rintro ⟨rfl, hn⟩
    exact readParameters_chars hn rest

theorem readResult_eq_ok {s : List Char} {result : Option FieldType} : readResult text s = .ok result ↔
    s = (result.map FieldType.chars).getD ['V'] ∧ ∀ t ∈ result, t.Named := by
  unfold readResult
  by_cases hv : s = ['V']
  · rw [if_pos hv]
    cases result with
    | none => simp [hv]
    | some t => simp [hv, (FieldType.chars_ne_void t).symm]
  · rw [if_neg hv]
    cases result with
    | none =>
      split <;> simp [hv]
    | some t =>
      have hparse : FieldType.parse (String.ofList s) = .ok t ↔ s = t.chars ∧ t.Named := by
        rw [FieldType.parse_eq_ok, FieldType.eq_render, String.toList_ofList]
      simp only [Option.map_some, Option.getD_some, Option.mem_some_iff, forall_eq', ← hparse]
      split <;> simp_all

/-! The reader stops in one of four places, and each names the whole text. -/

theorem readParameters_eq_error {s : List Char} {e : AnalysisError} (h : readParameters text s = .error e) :
    e = .descriptor text := by
  fun_induction readParameters text s with
  | case1 => cases h
  | case2 | case3 =>
    cases h
    rfl
  | case4 => cases h
  | case5 s hs hne t tail hr _ e' ht ih =>
    cases h
    exact ih ht

theorem readResult_eq_error {s : List Char} {e : AnalysisError} (h : readResult text s = .error e) :
    e = .descriptor text := by
  unfold readResult at h
  split at h
  · cases h
  · split at h
    · cases h
    · cases h
      rfl

theorem parse_eq_error {e : AnalysisError} (h : parse text = .error e) : e = .descriptor text := by
  unfold parse at h
  split at h
  · split at h
    · rename_i hp
      cases h
      exact readParameters_eq_error hp
    · split at h
      · rename_i hr
        cases h
        exact readResult_eq_error hr
      · cases h
  · cases h
    rfl

theorem parse_eq_ok {d : MethodDescriptor} : parse text = .ok d ↔ text = d.render ∧ d.Named := by
  obtain ⟨ts, result⟩ := d
  have htext : text = render ⟨ts, result⟩ ↔ text.toList = chars ⟨ts, result⟩ := by
    rw [render, ← String.toList_inj, String.toList_ofList]
  rw [htext]
  unfold parse Named chars
  split
  · rename_i s hopen
    rw [hopen]
    constructor
    · intro h
      split at h
      · cases h
      · rename_i ts' rest hp
        split at h
        · cases h
        · rename_i result' hr
          cases h
          obtain ⟨hs, hns⟩ := readParameters_eq_ok.mp hp
          obtain ⟨hrest, hn⟩ := readResult_eq_ok.mp hr
          exact ⟨by rw [hs, hrest], hns, hn⟩
    · rintro ⟨hs, hns, hn⟩
      have hp : readParameters text s = .ok (ts, (result.map FieldType.chars).getD ['V']) :=
        readParameters_eq_ok.mpr ⟨by simpa using hs, hns⟩
      have hr : readResult text ((result.map FieldType.chars).getD ['V']) = .ok result :=
        readResult_eq_ok.mpr ⟨rfl, hn⟩
      simp only [hp, hr]
  · rename_i hopen
    constructor
    · intro h
      cases h
    · rintro ⟨hs, -⟩
      exact absurd hs (hopen _)

end

theorem render_eq (d : MethodDescriptor) : d.render =
    "(" ++ String.join (d.parameters.map FieldType.render) ++ ")" ++ (d.result.map FieldType.render).getD "V" := by
  rw [← String.toList_inj]
  cases h : d.result <;> simp [render, chars, FieldType.render, h, List.flatMap_map]

-- the parenthesis inside the class name does not close the list
example : parse "(La)b;[[J)V" = .ok ⟨[.object "a)b", .array (.array .long)], none⟩ :=
  parse_eq_ok.mpr ⟨by decide, by simp [Named, FieldType.Named]⟩

end MethodDescriptor

/-- **Descriptors are read exactly as they are written.** A text is a field type, or a method descriptor, if and
only if it is one written out, with class names that are not empty and hold no semicolon. Any other text is
refused: as a method descriptor under its own name, as a field type under the piece where reading stopped. -/
theorem parse_iff_rendered (s : String) :
    (∀ t, FieldType.parse s = .ok t ↔ s = t.render ∧ t.Named) ∧
    (∀ d, MethodDescriptor.parse s = .ok d ↔
      s = "(" ++ String.join (d.parameters.map FieldType.render) ++ ")" ++ (d.result.map FieldType.render).getD "V" ∧
        (∀ t ∈ d.parameters, t.Named) ∧ ∀ t ∈ d.result, t.Named) ∧
    ((∃ d, MethodDescriptor.parse s = .ok d) ∨ MethodDescriptor.parse s = .error (.descriptor s)) ∧
    ((∃ t, FieldType.parse s = .ok t) ∨
      ∃ piece, piece <:+ s.toList ∧ FieldType.parse s = .error (.descriptor (String.ofList piece))) := by
  refine ⟨fun t => FieldType.parse_eq_ok, fun d => ?_, ?_, ?_⟩
  · rw [MethodDescriptor.parse_eq_ok, MethodDescriptor.render_eq]
    rfl
  · cases h : MethodDescriptor.parse s with
    | ok d => exact .inl ⟨d, rfl⟩
    | error e => exact .inr (by rw [MethodDescriptor.parse_eq_error h])
  · cases h : FieldType.parse s with
    | ok t => exact .inl ⟨t, rfl⟩
    | error e =>
      obtain ⟨piece, hpiece, rfl⟩ := FieldType.piece_of_parse h
      exact .inr ⟨piece, hpiece, rfl⟩

end SinkCheck
