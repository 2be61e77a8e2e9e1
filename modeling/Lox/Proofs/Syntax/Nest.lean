/-
  Lox.Proofs.Syntax.Nest
  ──────────────────────
  **NESTED LISTS AND THEIR TEXTS.**

  A nested list is made of words, blanks and parentheses.  Where no two words
  stand next to each other, and no word has a blank or a parenthesis in it, a
  reader knows at each character what starts there: so the text determines
  the list (`text_injective`).
-/
import Lox.Proofs.Token.Respell

namespace Lox

/-! ## §1. Nested lists. -/

/-- A word, a blank, or a list in parentheses. -/
inductive Nest where
  | word (text : String)
  | blank
  | list (parts : List Nest)

namespace Nest

mutual

/-- The text of a nested list. -/
def text : Nest → String
  | .word t => t
  | .blank => " "
  | .list parts => "(" ++ textAll parts ++ ")"

/-- The text of parts, one after the other. -/
def textAll : List Nest → String
  | [] => ""
  | n :: rest => n.text ++ textAll rest

end

/-- Parts with a blank in front of each. -/
def separate (parts : List Nest) : List Nest :=
  parts.flatMap fun n => [.blank, n]

/-- A list with a word in front, and blanks before the other parts. -/
def tagged (tag : String) (parts : List Nest) : Nest :=
  .list (.word tag :: separate parts)

/-! ## §2. Lists that can be read. -/

/-- The characters that a word has not. -/
def isMark (c : Char) : Bool :=
  c == ' ' || c == '(' || c == ')'

/-- A word has at least one character, and no marks. -/
def IsWord (t : String) : Prop :=
  t.toList ≠ [] ∧ ∀ c ∈ t.toList, isMark c = false

instance : DecidablePred IsWord := fun t =>
  decidable_of_iff (!t.toList.isEmpty && t.toList.all fun c => !isMark c) <| by
    simp [IsWord]

/-- Whether a part is a word. -/
def isWord : Nest → Bool
  | .word _ => true
  | _ => false

mutual

/-- All words are words, and no two of them stand next to each other. -/
def Readable : Nest → Prop
  | .word t => IsWord t
  | .blank => True
  | .list parts => ReadableAll parts

/-- Parts that can be read one after the other. -/
def ReadableAll : List Nest → Prop
  | [] => True
  | n :: rest => n.Readable ∧ (n.isWord → ∀ m ∈ rest.head?, m.isWord = false) ∧ ReadableAll rest

end

/-- Parts with blanks before them start with a blank. -/
theorem head_separate (parts : List Nest) : ∀ m ∈ (separate parts).head?, m.isWord = false := by
  cases parts with
  | nil => exact fun _ h => nomatch h
  | cons n parts =>
    rintro m ⟨⟩
    rfl

theorem readableAll_separate {parts : List Nest} (h : ∀ n ∈ parts, n.Readable) :
    ReadableAll (separate parts) := by
  induction parts with
  | nil => trivial
  | cons n parts ih =>
    have hrest := ih fun m hm => h m (List.mem_cons_of_mem n hm)
    exact ⟨trivial, nofun, h n List.mem_cons_self, fun _ => head_separate parts, hrest⟩

theorem readable_tagged {tag : String} {parts : List Nest} (htag : IsWord tag)
    (hparts : ∀ n ∈ parts, n.Readable) : (tagged tag parts).Readable :=
  ⟨htag, fun _ => head_separate parts, readableAll_separate hparts⟩

/-- Words with blanks between them can be read. -/
theorem readableAll_intersperse {ws : List String} (h : ∀ w ∈ ws, IsWord w) :
    ReadableAll ((ws.map .word).intersperse .blank) := by
  induction ws with
  | nil => trivial
  | cons w ws ih =>
    have hrest := ih fun w' hw' => h w' (List.mem_cons_of_mem w hw')
    cases ws with
    | nil => exact ⟨h w List.mem_cons_self, fun _ _ hm => (nomatch hm), trivial⟩
    | cons w' ws =>
      refine ⟨h w List.mem_cons_self, fun _ => ?_, trivial, nofun, hrest⟩
      rintro m ⟨⟩
      rfl

/-! ## §3. Texts determine them. -/

/-- What follows some parts: nothing, or a mark. -/
def Halts (cs : List Char) : Prop :=
  ∀ c ∈ cs.head?, isMark c = true

theorem halts_cons {c : Char} (h : isMark c = true) (cs : List Char) : Halts (c :: cs) := by
  rintro d ⟨⟩
  exact h

/-- What is no word starts with a mark. -/
theorem halts_part {n : Nest} (h : n.isWord = false) (cs : List Char) :
    Halts (n.text.toList ++ cs) := by
  cases n with
  | word => cases h
  | blank => exact halts_cons (by decide) _
  | list parts =>
    rw [text, String.toList_append, String.toList_append, List.append_assoc, List.append_assoc]
    exact halts_cons (by decide) _

theorem halts_parts {ns : List Nest} (h : ∀ m ∈ ns.head?, m.isWord = false) {cs : List Char}
    (hcs : Halts cs) : Halts ((textAll ns).toList ++ cs) := by
  cases ns with
  | nil => exact hcs
  | cons n ns =>
    rw [textAll, String.toList_append, List.append_assoc]
    exact halts_part (h n rfl) _

/-- **A word ends where a mark is.** -/
theorem word_unique {t t' : String} {cs cs' : List Char} (ht : IsWord t) (ht' : IsWord t')
    (hcs : Halts cs) (hcs' : Halts cs') (h : t.toList ++ cs = t'.toList ++ cs') :
    t = t' ∧ cs = cs' := by
  have hstops : ∀ {ds : List Char}, Halts ds → Stops (fun c => !isMark c) ds := by
    intro ds hds c hc
    show (!isMark c) = false
    rw [hds c hc]
    rfl
  have hall : ∀ {u : String}, IsWord u → ∀ c ∈ u.toList, (!isMark c) = true := by
    intro u hu c hc
    rw [hu.2 c hc]
    rfl
  have htake := congrArg (List.takeWhile fun c => !isMark c) h
  rw [takeWhile_stops (hall ht) (hstops hcs), takeWhile_stops (hall ht') (hstops hcs')] at htake
  obtain rfl := String.toList_inj.mp htake
  exact ⟨rfl, List.append_cancel_left h⟩

/-- A word does not start as anything else does. -/
theorem word_ne_mark {t : String} (ht : IsWord t) {cs ds : List Char} (hds : Halts ds) :
    t.toList ++ cs ≠ ds := by
  intro h
  cases hlist : t.toList with
  | nil => exact ht.1 hlist
  | cons c rest =>
    have hmark := hds c (by rw [← h, hlist]; rfl)
    rw [ht.2 c (by rw [hlist]; exact List.mem_cons_self)] at hmark
    cases hmark

/-- What follows parts in a list, or in no list. -/
def Closes (cs : List Char) : Prop :=
  ∀ c ∈ cs.head?, c = ')'

theorem Closes.halts {cs : List Char} (h : Closes cs) : Halts cs := by
  intro c hc
  rw [h c hc]
  rfl

theorem closes_nil : Closes [] :=
  nofun

theorem closes_cons (cs : List Char) : Closes (')' :: cs) := by
  rintro c ⟨⟩
  rfl

/-- No part starts as a list ends. -/
theorem part_ne_closes {n : Nest} (hn : n.Readable) {cs ds : List Char} (hds : Closes ds) :
    n.text.toList ++ cs ≠ ds := by
  cases n with
  | word t => exact word_ne_mark hn hds.halts
  | blank =>
    rintro rfl
    exact absurd (hds ' ' rfl) (by decide)
  | list parts =>
    rintro rfl
    rw [text, String.toList_append, String.toList_append, List.append_assoc,
      List.append_assoc] at hds
    exact absurd (hds '(' rfl) (by decide)

/-- **The text of parts determines them**, and where they end. -/
theorem textAll_unique : ∀ {ns ns' : List Nest} {cs cs' : List Char}, ReadableAll ns →
    ReadableAll ns' → Closes cs → Closes cs' →
    (textAll ns).toList ++ cs = (textAll ns').toList ++ cs' → ns = ns' ∧ cs = cs'
  | [], [], _, _, _, _, _, _, h => ⟨rfl, h⟩
  | [], n' :: ns', cs, cs', _, hns', hcs, _, h => by
    rw [textAll, textAll, String.toList_append, List.append_assoc] at h
    exact absurd h.symm (part_ne_closes hns'.1 hcs)
  | n :: ns, [], cs, cs', hns, _, _, hcs', h => by
    rw [textAll, textAll, String.toList_append, List.append_assoc] at h
    exact absurd h (part_ne_closes hns.1 hcs')
  | .word t :: ns, .word t' :: ns', cs, cs', hns, hns', hcs, hcs', h => by
    rw [textAll, textAll, String.toList_append, String.toList_append, List.append_assoc,
      List.append_assoc] at h
    -- no word follows a word, so both end where the first mark is
    obtain ⟨rfl, hrest⟩ := word_unique hns.1 hns'.1 (halts_parts (hns.2.1 rfl) hcs.halts)
      (halts_parts (hns'.2.1 rfl) hcs'.halts) h
    obtain ⟨rfl, rfl⟩ := textAll_unique hns.2.2 hns'.2.2 hcs hcs' hrest
    exact ⟨rfl, rfl⟩
  | .word t :: ns, .blank :: ns', cs, cs', hns, hns', hcs, hcs', h
  | .word t :: ns, .list _ :: ns', cs, cs', hns, hns', hcs, hcs', h => by
    rw [textAll, textAll, String.toList_append, String.toList_append, List.append_assoc,
      List.append_assoc] at h
    exact absurd h (word_ne_mark hns.1 (halts_part rfl _))
  | .blank :: ns, .word t' :: ns', cs, cs', hns, hns', hcs, hcs', h
  | .list _ :: ns, .word t' :: ns', cs, cs', hns, hns', hcs, hcs', h => by
    rw [textAll, textAll, String.toList_append, String.toList_append, List.append_assoc,
      List.append_assoc] at h
    exact absurd h.symm (word_ne_mark hns'.1 (halts_part rfl _))
  | .blank :: ns, .list _ :: ns', cs, cs', hns, hns', hcs, hcs', h
  | .list _ :: ns, .blank :: ns', cs, cs', hns, hns', hcs, hcs', h => by
    rw [textAll, textAll, text, text, String.toList_append, String.toList_append,
      String.toList_append, String.toList_append] at h
    exact absurd (List.cons.inj h).1 (by decide)
  | .blank :: ns, .blank :: ns', cs, cs', hns, hns', hcs, hcs', h => by
    rw [textAll, textAll, String.toList_append, String.toList_append, List.append_assoc,
      List.append_assoc] at h
    obtain ⟨rfl, rfl⟩ := textAll_unique hns.2.2 hns'.2.2 hcs hcs' (List.cons.inj h).2
    exact ⟨rfl, rfl⟩
  | .list parts :: ns, .list parts' :: ns', cs, cs', hns, hns', hcs, hcs', h => by
    rw [textAll, textAll, text, text] at h
    simp only [String.toList_append, List.append_assoc] at h
    -- the parts inside end where the list is closed
    obtain ⟨rfl, hrest⟩ := textAll_unique hns.1 hns'.1 (closes_cons _) (closes_cons _)
      (List.cons.inj h).2
    obtain ⟨rfl, rfl⟩ := textAll_unique hns.2.2 hns'.2.2 hcs hcs' (List.cons.inj hrest).2
    exact ⟨rfl, rfl⟩

/-- **The text of a nested list determines it.** -/
theorem text_injective {n n' : Nest} (hn : n.Readable) (hn' : n'.Readable)
    (h : n.text = n'.text) : n = n' := by
  have hall : (textAll [n]).toList ++ [] = (textAll [n']).toList ++ [] := by
    rw [textAll, textAll, h]
    rfl
  have hone : ∀ {m : Nest}, m.Readable → ReadableAll [m] := fun hm => ⟨hm, fun _ => nofun, trivial⟩
  exact (List.cons.inj (textAll_unique (hone hn) (hone hn') closes_nil closes_nil hall).1).1

end Nest

end Lox
