/-
  Lox.Proofs.Octets.Places
  ────────────────────────
  **PLACES BETWEEN CHARACTERS.**

  The octets of a source are those of its characters, one group after another.  A
  character below 128 is one octet, its code; all octets of any other character are 128
  or more.  So an octet tells by itself whether it is some character below 128, and
  a run of such characters, or a run up to one of them, is found octet by octet.

  Main results:
    * `slice_of_append`: characters of a source are a slice of its octets.
    * `Agrees`: a test of octets that comes to a test of characters; the octets
      that pass are those of the characters that do (`takeWhile_encoded`).
    * `Between.ahead`: what a scanner finds from its cursor on.
-/
import Lox.Proofs.Octets.Basic
import Lox.Proofs.Token.Partition

namespace Lox

/-! ## §1. Slices. -/

/-- The number of octets that characters take up. -/
def octets (cs : List Char) : Nat :=
  (String.ofList cs).utf8ByteSize

/-- **The octets of a source between two places are those of some characters**,
and no character is cut apart. -/
structure Slice (source : String) (start stop : Nat) (cs : List Char) : Prop where
  validStart : String.Pos.Raw.IsValid source ⟨start⟩
  validStop : String.Pos.Raw.IsValid source ⟨stop⟩
  eq : source.toUTF8.extract start stop = (String.ofList cs).toUTF8

theorem octets_append (cs cs' : List Char) : octets (cs ++ cs') = octets cs + octets cs' := by
  unfold octets
  rw [String.ofList_append, String.utf8ByteSize_append]

/-- Characters of a source are a slice of it. -/
theorem slice_of_append {source : String} {before cs after : List Char}
    (h : source.toList = before ++ cs ++ after) :
    Slice source (octets before) (octets before + octets cs) cs := by
  have hsource : source = String.ofList (before ++ cs) ++ String.ofList after := by
    rw [← String.ofList_append, ← h, String.ofList_toList]
  have hbefore : source = String.ofList before ++ (String.ofList cs ++ String.ofList after) := by
    rw [hsource, String.ofList_append, String.append_assoc]
  refine ⟨?_, ?_, ?_⟩
  · exact String.Pos.Raw.isValid_iff_exists_append.mpr ⟨_, _, hbefore, rfl⟩
  · rw [← octets_append]
    exact String.Pos.Raw.isValid_iff_exists_append.mpr ⟨_, _, hsource, rfl⟩
  · have hbytes : source.toUTF8 = (String.ofList before).toByteArray
        ++ ((String.ofList cs).toByteArray ++ (String.ofList after).toByteArray) := by
      rw [hbefore, String.toUTF8, String.toByteArray_append, String.toByteArray_append]
    rw [hbytes]
    exact (ByteArray.extract_append_size_add (i := 0)).trans (ByteArray.extract_append_eq_left rfl)

/-- What stands between quotes is a slice without them: they take up one octet
each. -/
theorem slice_of_quoted {source : String} {before cs after : List Char}
    (h : source.toList = before ++ ('"' :: cs ++ ['"']) ++ after) :
    Slice source (octets before + 1) (octets before + octets ('"' :: cs ++ ['"']) - 1) cs := by
  have hinner : source.toList = before ++ ['"'] ++ cs ++ '"' :: after := by
    rw [h]
    simp only [List.append_assoc, List.cons_append, List.nil_append]
  have hquote : octets ['"'] = 1 := rfl
  have hlength : octets ('"' :: cs ++ ['"']) = 1 + octets cs + 1 := by
    rw [← List.singleton_append, List.append_assoc, octets_append, octets_append, hquote,
      Nat.add_assoc]
  have hstop : octets before + octets ('"' :: cs ++ ['"']) - 1
      = octets before + 1 + octets cs := by
    rw [hlength]
    omega
  have hslice := slice_of_append hinner
  rw [octets_append, hquote] at hslice
  rw [hstop]
  exact hslice

namespace Octets

/-! ## §2. The octets of characters. -/

/-- The octets of characters, one after another. -/
def encoded (cs : List Char) : List UInt8 :=
  cs.flatMap String.utf8EncodeChar

theorem encoded_cons (c : Char) (cs : List Char) :
    encoded (c :: cs) = String.utf8EncodeChar c ++ encoded cs := rfl

theorem encoded_append (cs cs' : List Char) : encoded (cs ++ cs') = encoded cs ++ encoded cs' :=
  List.flatMap_append

theorem data_ofList (cs : List Char) : (String.ofList cs).toUTF8.data.toList = encoded cs := by
  rw [String.toUTF8, String.toByteArray_ofList, List.utf8Encode, List.toList_data_toByteArray]
  rfl

theorem length_encoded (cs : List Char) : (encoded cs).length = octets cs := by
  rw [← data_ofList, Array.length_toList]
  rfl

theorem octets_cons (c : Char) (cs : List Char) : octets (c :: cs) = c.utf8Size + octets cs := by
  rw [← length_encoded, encoded_cons, List.length_append, String.length_utf8EncodeChar,
    length_encoded]

/-- **An octet tells whether it is a character below 128**, and which one. -/
theorem octet_cases {c : Char} {b : UInt8} (h : b ∈ String.utf8EncodeChar c) :
    (c.toNat < 128 ∧ String.utf8EncodeChar c = [b] ∧ b.toNat = c.toNat)
      ∨ (128 ≤ c.toNat ∧ 128 ≤ b.toNat) := by
  have hval : c.val.toNat = c.toNat := rfl
  unfold String.utf8EncodeChar at h ⊢
  rw [hval] at h ⊢
  dsimp only at h ⊢
  split at h
  · next hle =>
    obtain rfl := List.mem_singleton.mp h
    refine .inl ⟨by omega, if_pos hle, ?_⟩
    rw [UInt8.toNat_ofNat']
    omega
  · next hgt =>
    -- a first octet is 192 or more, the others are 128 or more
    refine .inr ⟨by omega, ?_⟩
    split at h
    · simp only [List.mem_cons, List.not_mem_nil, or_false] at h
      rcases h with rfl | rfl <;> rw [UInt8.toNat_ofNat'] <;> omega
    · split at h
      · simp only [List.mem_cons, List.not_mem_nil, or_false] at h
        rcases h with rfl | rfl | rfl <;> rw [UInt8.toNat_ofNat'] <;> omega
      · simp only [List.mem_cons, List.not_mem_nil, or_false] at h
        rcases h with rfl | rfl | rfl | rfl <;> rw [UInt8.toNat_ofNat'] <;> omega

theorem utf8EncodeChar_ne_nil (c : Char) : String.utf8EncodeChar c ≠ [] := by
  rw [← List.length_pos_iff, String.length_utf8EncodeChar]
  exact c.utf8Size_pos

/-- A character below 128 is its code. -/
theorem utf8EncodeChar_of_lt {c : Char} (h : c.toNat < 128) :
    String.utf8EncodeChar c = [c.toUInt8] := by
  obtain ⟨b, hb⟩ := List.exists_mem_of_ne_nil _ (utf8EncodeChar_ne_nil c)
  rcases octet_cases hb with ⟨-, hone, hcode⟩ | ⟨hge, -⟩
  · have hbyte : b = c.toUInt8 := by
      apply UInt8.toNat_inj.mp
      rw [hcode]
      show c.toNat = c.toNat % 256
      omega
    rw [hone, hbyte]
  · omega

theorem encoded_cons_of_lt {c : Char} (h : c.toNat < 128) (cs : List Char) :
    encoded (c :: cs) = c.toUInt8 :: encoded cs := by
  rw [encoded_cons, utf8EncodeChar_of_lt h]
  rfl

/-- Every character has a first octet. -/
theorem exists_encoded_cons (c : Char) (cs : List Char) :
    ∃ b bs, encoded (c :: cs) = b :: bs ∧ b ∈ String.utf8EncodeChar c := by
  obtain ⟨b, bs, hbs⟩ := List.exists_cons_of_ne_nil (utf8EncodeChar_ne_nil c)
  refine ⟨b, bs ++ encoded cs, ?_, hbs ▸ List.mem_cons_self⟩
  rw [encoded_cons, hbs, List.cons_append]

theorem isEmpty_encoded (cs : List Char) : (encoded cs).isEmpty = cs.isEmpty := by
  cases cs with
  | nil => rfl
  | cons c cs =>
    obtain ⟨b, bs, hbs, -⟩ := exists_encoded_cons c cs
    rw [hbs]
    rfl

theorem utf8Size_of_lt {c : Char} (h : c.toNat < 128) : c.utf8Size = 1 := by
  rw [← String.length_utf8EncodeChar, utf8EncodeChar_of_lt h]
  rfl

/-! ## §3. Tests of octets. -/

/-- **A test of octets that comes to a test of characters**: the octets of a character
pass if it does. -/
def Agrees (q : UInt8 → Bool) (p : Char → Bool) : Prop :=
  ∀ c, ∀ b ∈ String.utf8EncodeChar c, q b = p c

/-- Whether an octet is the code of a character of a class below 128. -/
theorem agrees_isCode {p : Char → Bool} (hp : ∀ c, p c → c.toNat < 128) :
    Agrees (isCode p) p := by
  intro c b hb
  have hcode : (Char.ofUInt8 b).toNat = b.toNat := rfl
  rcases octet_cases hb with ⟨-, -, heq⟩ | ⟨hc, hb⟩
  · have hchar : Char.ofUInt8 b = c := Char.toNat_inj.mp (hcode.trans heq)
    rw [isCode, hchar]
  · have hnot : ∀ d : Char, 128 ≤ d.toNat → p d = false := by
      intro d hd
      rw [Bool.eq_false_iff]
      intro h
      exact absurd (hp d h) (Nat.not_lt.mpr hd)
    rw [isCode, hnot c hc, hnot _ (hcode.symm ▸ hb)]

/-- Whether an octet is one character below 128. -/
theorem agrees_beq {d : Char} (hd : d.toNat < 128) : Agrees (· == d.toUInt8) (· == d) := by
  intro c b hb
  have hcode : d.toUInt8.toNat = d.toNat := by
    show d.toNat % 256 = d.toNat
    omega
  rw [Bool.eq_iff_iff, beq_iff_eq, beq_iff_eq, ← UInt8.toNat_inj, ← Char.toNat_inj, hcode]
  rcases octet_cases hb with ⟨-, -, heq⟩ | ⟨hc, hb⟩
  · rw [heq]
  · constructor <;> omega

theorem Agrees.not {q : UInt8 → Bool} {p : Char → Bool} (h : Agrees q p) :
    Agrees (fun b => !q b) (fun c => !p c) :=
  fun c b hb => congrArg (fun x => !x) (h c b hb)

section Tests

variable {q : UInt8 → Bool} {p : Char → Bool} (h : Agrees q p)
include h

/-- **Octets pass as long as characters do.** -/
theorem takeWhile_encoded (cs : List Char) :
    (encoded cs).takeWhile q = encoded (cs.takeWhile p) := by
  induction cs with
  | nil => rfl
  | cons c cs ih =>
    rw [encoded_cons, List.takeWhile_cons]
    cases hc : p c with
    | true =>
      have hall : ∀ b ∈ String.utf8EncodeChar c, q b = true := fun b hb => (h c b hb).trans hc
      rw [List.takeWhile_append_of_pos hall, ih]
      rfl
    | false =>
      obtain ⟨b, bs, hbs, hb⟩ := exists_encoded_cons c cs
      rw [← encoded_cons, hbs, List.takeWhile_cons, (h c b hb).trans hc]
      rfl

/-- The first octet passes if the first character does. -/
theorem any_head?_encoded (cs : List Char) : (encoded cs).head?.any q = cs.head?.any p := by
  cases cs with
  | nil => rfl
  | cons c cs =>
    obtain ⟨b, bs, hbs, hb⟩ := exists_encoded_cons c cs
    rw [hbs]
    exact h c b hb

end Tests

/-- A character below 128 is as often among the octets as among the characters. -/
theorem count_encoded {d : Char} (hd : d.toNat < 128) (cs : List Char) :
    (encoded cs).count d.toUInt8 = cs.count d := by
  induction cs with
  | nil => rfl
  | cons c cs ih =>
    rw [encoded_cons, List.count_append, ih, List.count_cons, Nat.add_comm]
    congr 1
    by_cases hc : c.toNat < 128
    · have hone := utf8EncodeChar_of_lt hc
      have hbeq : (c.toUInt8 == d.toUInt8) = (c == d) :=
        agrees_beq hd c _ (hone ▸ List.mem_cons_self)
      rw [hone, List.count_singleton, hbeq]
    · -- none of the octets of a greater character is one below 128
      have hne : (c == d) = false := by
        rw [beq_eq_false_iff_ne]
        rintro rfl
        exact hc hd
      have hnone : d.toUInt8 ∉ String.utf8EncodeChar c := by
        intro hmem
        have hbeq : (d.toUInt8 == d.toUInt8) = (c == d) := agrees_beq hd c _ hmem
        rw [hne, beq_self_eq_true] at hbeq
        cases hbeq
      rw [List.count_eq_zero.mpr hnone, hne]
      rfl

/-! ## §4. Places. -/

/-- **A place between two parts of a source.** -/
structure Between (source : String) (before after : List Char) (place : Nat) : Prop where
  text : source.toList = before ++ after
  place : place = octets before

namespace Between

variable {source : String} {before after : List Char} {place : Nat}

theorem start (source : String) : Between source [] source.toList 0 :=
  ⟨rfl, rfl⟩

/-- A place further on. -/
theorem move {cs : List Char} (h : Between source before (cs ++ after) place) :
    Between source (before ++ cs) after (place + octets cs) := by
  refine ⟨?_, ?_⟩
  · rw [h.text, List.append_assoc]
  · rw [h.place, octets_append]

theorem size (h : Between source before after place) :
    source.utf8ByteSize = place + octets after := by
  have hsource : source.utf8ByteSize = octets source.toList := by
    rw [octets, String.ofList_toList]
  rw [hsource, h.text, octets_append, h.place]

/-- **What lies ahead of a place** are the octets of the characters after it. -/
theorem ahead (h : Between source before after place) :
    source.toUTF8.data.toList.drop place = encoded after := by
  have hsource : source.toUTF8.data.toList = encoded source.toList := by
    rw [← data_ofList, String.ofList_toList]
  rw [hsource, h.text, encoded_append, h.place, ← length_encoded, List.drop_left]

end Between

end Octets

end Lox
