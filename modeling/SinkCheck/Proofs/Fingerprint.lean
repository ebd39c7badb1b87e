import Mathlib
import SinkCheck.Finding
import SinkCheck.Proofs.Grammar

/-!
# What a fingerprint tells apart

The texts of a finding are digested one behind the other. A descriptor does not end with a digit, so the position
can be told from what is in front of it, and a descriptor can be told from names without a parenthesis. The names
cannot be told from each other: letters that move from one to the next leave the bytes as they are.
-/

namespace SinkCheck

/-! ## Bytes of a text -/

theorem toList_loop (bytes : ByteArray) (i : Nat) (r : List UInt8) :
    ByteArray.toList.loop bytes i r = r.reverse ++ bytes.data.toList.drop i := by
  fun_induction ByteArray.toList.loop bytes i r with
  | case1 i r hlt ih =>
    have hnext : bytes.data.toList.drop i = bytes.get! i :: bytes.data.toList.drop (i + 1) := by
      rw [List.drop_eq_getElem_cons (by simpa using hlt)]
      simp [ByteArray.get!, hlt]
    rw [ih, hnext, List.reverse_cons, List.append_assoc, List.singleton_append]
  | case2 i r hge =>
    have hnone : bytes.data.toList.drop i = [] := List.drop_eq_nil_of_le (by simpa using hge)
    rw [hnone, List.append_nil]

theorem toUTF8_toList_inj {s s' : String} : s.toUTF8.toList = s'.toUTF8.toList ↔ s = s' := by
  constructor
  · intro h
    simp only [ByteArray.toList, toList_loop, List.reverse_nil, List.nil_append, List.drop_zero,
      Array.toList_inj] at h
    exact String.toByteArray_inj.mp (ByteArray.ext h)
  · intro h
    rw [h]

/-! ## Where a text can be cut -/

/-- A text is cut in one way at the first character that is not of a kind. -/
theorem cut_inj {p : Char → Bool} {u u' v v' : List Char} {x x' : Char} (hu : ∀ c ∈ u, p c = true)
    (hu' : ∀ c ∈ u', p c = true) (hx : p x = false) (hx' : p x' = false) (h : u ++ x :: v = u' ++ x' :: v') :
    u = u' ∧ x :: v = x' :: v' := by
  have hfront : u = u' := by
    have := congrArg (List.takeWhile p) h
    simpa [List.takeWhile_append_of_pos hu, List.takeWhile_append_of_pos hu', hx, hx'] using this
  rw [hfront] at h
  exact ⟨hfront, List.append_cancel_left h⟩

/-- Digits can be told from a text that does not end with one. -/
theorem digits_inj {u u' v v' : List Char} {x x' : Char} (hx : x.isDigit = false) (hx' : x'.isDigit = false)
    (hv : ∀ c ∈ v, c.isDigit = true) (hv' : ∀ c ∈ v', c.isDigit = true)
    (h : (u ++ [x]) ++ v = (u' ++ [x']) ++ v') : u ++ [x] = u' ++ [x'] ∧ v = v' := by
  have hback : v.reverse ++ x :: u.reverse = v'.reverse ++ x' :: u'.reverse := by
    have := congrArg List.reverse h
    simpa using this
  obtain ⟨hdigits, -⟩ := cut_inj (by simpa using hv) (by simpa using hv') hx hx' hback
  rw [List.reverse_inj] at hdigits
  rw [hdigits] at h
  exact ⟨List.append_cancel_right h, hdigits⟩

/-- What opens with a parenthesis can be told from a text that has none. -/
theorem opening_inj {u u' v v' : List Char} (hu : '(' ∉ u) (hu' : '(' ∉ u') (h : u ++ '(' :: v = u' ++ '(' :: v') :
    u = u' ∧ v = v' := by
  have hplain : ∀ {w : List Char}, '(' ∉ w → ∀ c ∈ w, (c != '(') = true := by
    intro w hw c hc
    rw [bne_iff_ne]
    intro heq
    exact hw (heq ▸ hc)
  obtain ⟨hname, hrest⟩ := cut_inj (hplain hu) (hplain hu') rfl rfl h
  exact ⟨hname, List.tail_eq_of_cons_eq hrest⟩

theorem isDigit_of_mem_toString {n : Nat} {c : Char} (hc : c ∈ (toString n).toList) : c.isDigit = true := by
  rw [Nat.toString_eq_ofList_toDigits, String.toList_ofList] at hc
  exact Nat.isDigit_of_mem_toDigits (by decide) (by decide) hc

theorem FieldType.chars_snoc (t : FieldType) : ∃ front last, t.chars = front ++ [last] ∧ last.isDigit = false := by
  induction t with
  | object name => exact ⟨'L' :: name.toList, ';', rfl, rfl⟩
  | array t ih =>
    obtain ⟨front, last, heq, hlast⟩ := ih
    exact ⟨'[' :: front, last, by rw [chars, heq]; rfl, hlast⟩
  | _ => exact ⟨[], _, rfl, rfl⟩

theorem MethodDescriptor.chars_snoc (d : MethodDescriptor) :
    ∃ front last, d.chars = '(' :: (front ++ [last]) ∧ last.isDigit = false := by
  obtain ⟨parameters, result⟩ := d
  cases result with
  | none => exact ⟨parameters.flatMap FieldType.chars ++ [')'], 'V', by simp [chars], rfl⟩
  | some t =>
    obtain ⟨front, last, heq, hlast⟩ := t.chars_snoc
    exact ⟨parameters.flatMap FieldType.chars ++ ')' :: front, last, by simp [chars, heq], hlast⟩

namespace Finding

structure Key where
  bugType : String
  owner : String
  method : String
  descriptor : String
  position : Nat
deriving DecidableEq

namespace Key

section
variable (k : Key)

def message : List UInt8 :=
  (identity k.bugType k.owner k.method k.descriptor k.position).toUTF8.toList

def names : String :=
  k.bugType ++ k.owner ++ k.method

def Readable : Prop :=
  ∃ d, MethodDescriptor.parse k.descriptor = .ok d

theorem fingerprint_eq : fingerprint k.bugType k.owner k.method k.descriptor k.position =
    String.join (((sha256 k.message).take 2).map hexWord) := rfl

end

section
variable {k k' : Key}

theorem message_eq_iff_identity : k.message = k'.message ↔
    k.names ++ k.descriptor ++ toString k.position = k'.names ++ k'.descriptor ++ toString k'.position :=
  toUTF8_toList_inj

theorem Readable.snoc (hk : k.Readable) :
    ∃ front last, k.descriptor.toList = '(' :: (front ++ [last]) ∧ last.isDigit = false := by
  obtain ⟨d, hd⟩ := hk
  obtain ⟨front, last, hchars, hlast⟩ := d.chars_snoc
  refine ⟨front, last, ?_, hlast⟩
  rw [(MethodDescriptor.parse_eq_ok.mp hd).1, MethodDescriptor.render, String.toList_ofList, hchars]

/-- The position is told apart, and nothing in front of it. -/
theorem Readable.message_eq (hk : k.Readable) (hk' : k'.Readable) : k.message = k'.message ↔
    k.position = k'.position ∧ k.names ++ k.descriptor = k'.names ++ k'.descriptor := by
  rw [message_eq_iff_identity]
  constructor
  · intro h
    obtain ⟨front, last, heq, hlast⟩ := hk.snoc
    obtain ⟨front', last', heq', hlast'⟩ := hk'.snoc
    have htext : ((k.names.toList ++ '(' :: front) ++ [last]) ++ (toString k.position).toList =
        ((k'.names.toList ++ '(' :: front') ++ [last']) ++ (toString k'.position).toList := by
      have := congrArg String.toList h
      simpa [heq, heq'] using this
    obtain ⟨hfront, hdigits⟩ := digits_inj hlast hlast' (fun _ => isDigit_of_mem_toString)
      (fun _ => isDigit_of_mem_toString) htext
    refine ⟨Nat.repr_inj.mp (String.toList_inj.mp hdigits), String.toList_inj.mp ?_⟩
    simpa [heq, heq'] using hfront
  · intro h
    rw [h.1, h.2]

/-- Where no name has a parenthesis, the descriptor is told apart, and the names are not. -/
theorem Readable.message_eq_of_plain (hk : k.Readable) (hk' : k'.Readable) (hplain : '(' ∉ k.names.toList)
    (hplain' : '(' ∉ k'.names.toList) : k.message = k'.message ↔
      k.position = k'.position ∧ k.descriptor = k'.descriptor ∧ k.names = k'.names := by
  rw [hk.message_eq hk']
  constructor
  · intro h
    obtain ⟨hposition, htext⟩ := h
    obtain ⟨front, last, heq, -⟩ := hk.snoc
    obtain ⟨front', last', heq', -⟩ := hk'.snoc
    have hchars := congrArg String.toList htext
    rw [String.toList_append, String.toList_append, heq, heq'] at hchars
    obtain ⟨hnames, hrest⟩ := opening_inj hplain hplain' hchars
    refine ⟨hposition, String.toList_inj.mp ?_, String.toList_inj.mp hnames⟩
    rw [heq, heq', hrest]
  · intro h
    obtain ⟨hposition, hdescriptor, hnames⟩ := h
    exact ⟨hposition, by rw [hdescriptor, hnames]⟩

-- a parenthesis in the name of a method may open the descriptor of another
example : (⟨"X", "a/B", "m", "(Lx(La;)V", 1⟩ : Key).message = (⟨"X", "a/B", "m(Lx", "(La;)V", 1⟩ : Key).message :=
  message_eq_iff_identity.mpr (by decide)

/-- The keys have at most one of their names apart. -/
def Near (k k' : Key) : Prop :=
  k.owner = k'.owner ∧ k.method = k'.method ∨ k.bugType = k'.bugType ∧ k.method = k'.method ∨
    k.bugType = k'.bugType ∧ k.owner = k'.owner

theorem Near.eq (h : k.Near k') (hposition : k.position = k'.position) (hdescriptor : k.descriptor = k'.descriptor)
    (hnames : k.names = k'.names) : k = k' := by
  obtain ⟨bugType, owner, method, descriptor, position⟩ := k
  obtain ⟨bugType', owner', method', descriptor', position'⟩ := k'
  simp only [Near, names] at *
  subst hposition hdescriptor
  rcases h with ⟨rfl, rfl⟩ | ⟨rfl, rfl⟩ | ⟨rfl, rfl⟩
  · simpa using hnames
  · simpa using hnames
  · simpa using hnames

end

end Key

/-- **What a fingerprint tells apart.** Two keys are digested alike iff they have the same position and the same text
in front of it. If no name has a parenthesis, this means the same position, the same descriptor and the same names
joined; so keys that have at most one name apart are digested alike only if they are equal. -/
theorem message_tells_apart {k k' : Key} (hk : k.Readable) (hk' : k'.Readable) :
    (k.message = k'.message ↔ k.position = k'.position ∧ k.names ++ k.descriptor = k'.names ++ k'.descriptor) ∧
    ('(' ∉ k.names.toList → '(' ∉ k'.names.toList →
      (k.message = k'.message ↔
        k.position = k'.position ∧ k.descriptor = k'.descriptor ∧ k.names = k'.names) ∧
      (k.Near k' → k ≠ k' → k.message ≠ k'.message)) := by
  refine ⟨hk.message_eq hk', ?_⟩
  intro hplain hplain'
  have hiff := hk.message_eq_of_plain hk' hplain hplain'
  refine ⟨hiff, ?_⟩
  intro hnear hne hmessage
  obtain ⟨hposition, hdescriptor, hnames⟩ := hiff.mp hmessage
  exact hne (hnear.eq hposition hdescriptor hnames)

end Finding

namespace Sample

def findKey : Finding.Key :=
  ⟨"SQL_INJECTION", "acme/Dao", "find", "(Ljava/sql/Statement;Ljava/lang/String;)V", 2⟩

def shiftedKey : Finding.Key :=
  ⟨"SQL_INJECTION", "acme/Da", "ofind", "(Ljava/sql/Statement;Ljava/lang/String;)V", 2⟩

theorem readable_query {k : Finding.Key} (h : k.descriptor = "(Ljava/sql/Statement;Ljava/lang/String;)V") :
    k.Readable := by
  refine ⟨⟨[.object "java/sql/Statement", .object "java/lang/String"], none⟩, ?_⟩
  rw [h, MethodDescriptor.parse_eq_ok]
  exact ⟨by decide, by simp [MethodDescriptor.Named, FieldType.Named]⟩

end Sample

theorem Finding.next_position_apart :
    let k := Sample.findKey
    let k' := { Sample.findKey with position := 12 }
    k.Readable ∧ k'.Readable ∧ '(' ∉ k.names.toList ∧ k.Near k' ∧ k ≠ k' ∧ k.message ≠ k'.message := by
  intro k k'
  have hk : k.Readable := Sample.readable_query rfl
  have hk' : k'.Readable := Sample.readable_query rfl
  have hplain : '(' ∉ k.names.toList := by decide
  have hnear : k.Near k' := .inl ⟨rfl, rfl⟩
  have hne : k ≠ k' := by decide
  exact ⟨hk, hk', hplain, hnear, hne, ((message_tells_apart hk hk').2 hplain hplain).2 hnear hne⟩

theorem Finding.shifted_letter_collides :
    let k := Sample.findKey
    let k' := Sample.shiftedKey
    k.Readable ∧ k'.Readable ∧ k ≠ k' ∧ k.message = k'.message ∧
      fingerprint k.bugType k.owner k.method k.descriptor k.position =
        fingerprint k'.bugType k'.owner k'.method k'.descriptor k'.position := by
  intro k k'
  have hmessage : k.message = k'.message := Key.message_eq_iff_identity.mpr (by decide)
  refine ⟨Sample.readable_query rfl, Sample.readable_query rfl, by decide, hmessage, ?_⟩
  rw [Key.fingerprint_eq, Key.fingerprint_eq, hmessage]

end SinkCheck
