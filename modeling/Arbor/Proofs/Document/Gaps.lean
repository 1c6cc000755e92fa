import Mathlib.Data.List.TakeWhile
import Arbor.Document.Writing

/-!
# Gaps between the words of a scalar

What a cursor passes: words of a line, the spaces between two words (`gapAt_spaces`), and line
breaks with the indentation behind them (`gapAt_breaks`).  The writer uses three line breaks only,
each of which stands for itself.
-/

namespace Arbor.Document

variable {c : Cursor} {a b rest : List Char} {k n : ℕ}

/-- A list goes on with members of a class as far as it can. -/
lemma exists_span (p : Char → Bool) (l : List Char) :
    ∃ a b, l = a ++ b ∧ (∀ ch ∈ a, p ch = true) ∧ ∀ ch ∈ b.head?, p ch = false :=
  ⟨l.takeWhile p, l.dropWhile p, (List.takeWhile_append_dropWhile).symm,
    fun _ hch => List.mem_takeWhile_imp hch, fun ch hch => by
      have h := List.head?_dropWhile_not p l
      rwa [hch] at h⟩

lemma exists_span_cons (p : Char → Bool) {ch : Char} (hch : p ch = true) (l : List Char) :
    ∃ a b, l = a ++ b ∧ (∀ d ∈ ch :: a, p d = true) ∧ ∀ d ∈ b.head?, p d = false := by
  obtain ⟨a, b, hl, ha, hb⟩ := exists_span p l
  exact ⟨a, b, hl, List.forall_mem_cons.mpr ⟨hch, ha⟩, hb⟩

/-! ## Cursors -/

namespace Cursor

@[simp]
lemma rest_skip (c : Cursor) (n : ℕ) : (c.skip n).rest = c.rest.drop n := rfl

@[simp]
lemma column_skip (c : Cursor) (n : ℕ) : (c.skip n).column = c.column + n := rfl

@[simp]
lemma line_skip (c : Cursor) (n : ℕ) : (c.skip n).line = c.line := rfl

lemma offset_skip (c : Cursor) (n : ℕ) :
    (c.skip n).offset = c.offset + octetCount (c.rest.take n) := rfl

@[simp]
lemma skip_zero (c : Cursor) : c.skip 0 = c := by
  cases c
  simp [skip, octetCount]

lemma octetCount_append (a b : List Char) : octetCount (a ++ b) = octetCount a + octetCount b := by
  have hshift : ∀ (cs : List Char) (n : ℕ),
      cs.foldl (fun n c => n + c.utf8Size) n = n + cs.foldl (fun n c => n + c.utf8Size) 0 := by
    intro cs
    induction cs with
    | nil => simp
    | cons c cs ih =>
      intro n
      rw [List.foldl_cons, List.foldl_cons, ih, ih (0 + _), Nat.zero_add, Nat.add_assoc]
  rw [octetCount, List.foldl_append, hshift]
  rfl

lemma skip_skip (c : Cursor) (m n : ℕ) : (c.skip m).skip n = c.skip (m + n) := by
  simp only [skip, List.drop_drop, List.take_add, octetCount_append, mk.injEq, true_and]
  omega

lemma rest_skip_append (h : c.rest = a ++ b) : (c.skip a.length).rest = b := by
  rw [rest_skip, h, List.drop_left]

lemma rest_skip_spaces (h : c.rest = List.replicate k ' ' ++ b) : (c.skip k).rest = b := by
  rw [rest_skip, h, List.drop_left' List.length_replicate]

lemma at?_cons {ch : Char} {p : Char → Bool} (h : c.rest = ch :: rest) : c.at? p = p ch := by
  simp [at?, h]

lemma at?_eq_false {p : Char → Bool} (h : ∀ ch ∈ c.rest.head?, p ch = false) : c.at? p = false := by
  rw [at?]
  cases hc : c.rest.head? with
  | none => rfl
  | some ch => exact h ch hc

lemma atMarker_eq_false (h : 0 < c.column) : c.atMarker = false := by
  simp [atMarker, h.ne']

end Cursor

/-! ## Line breaks -/

/-- The line breaks that are written as they are. -/
def IsPlainBreak (ch : Char) : Prop := ch = '\n' ∨ ch = '\u2028' ∨ ch = '\u2029'

lemma isBreak_of_isPlainBreak {ch : Char} (h : IsPlainBreak ch) : isBreak ch = true := by
  rcases h with rfl | rfl | rfl <;> decide

lemma isWhite_eq_false_of_isBreak {ch : Char} (h : isBreak ch = true) : isWhite ch = false := by
  by_contra hwhite
  rw [Bool.not_eq_false, isWhite, Bool.or_eq_true, beq_iff_eq, beq_iff_eq] at hwhite
  rcases hwhite with rfl | rfl <;> revert h <;> decide

lemma isPlainBreak_of_isPrintable {ch : Char} (h : isPrintable ch = true) (hb : isBreak ch = true) :
    IsPlainBreak ch := by
  have hcode : ∀ d : Char, ch.toNat = d.toNat → ch = d := fun d hd => Char.toNat_inj.mp hd
  simp only [isBreak, Bool.or_eq_true, beq_iff_eq] at hb
  rcases hb with (((hb | hb) | hb) | hb) | hb
  · exact .inl (hcode _ hb)
  · simp [isPrintable, hb] at h
  · simp [isPrintable, hb] at h
  · exact .inr (.inl (hcode _ hb))
  · exact .inr (.inr (hcode _ hb))

/-- Neither white space nor a line break is next. -/
def AtWord (rest : List Char) : Prop := ∀ ch ∈ rest.head?, isWhite ch = false ∧ isBreak ch = false

lemma atWord_cons {ch : Char} (h : isWhite ch = false) (h' : isBreak ch = false) :
    AtWord (ch :: rest) :=
  fun _ hd => by
    cases hd
    exact ⟨h, h'⟩

section Breaks

variable {ch : Char} (hb : IsPlainBreak ch) (hc : c.rest = ch :: rest)

include hb hc

lemma skipBreak_cons : c.skipBreak.rest = rest ∧ c.skipBreak.column = 0 ∧
    c.skipBreak.left = rest.length ∧ c.breakText = [ch] := by
  have hlength : c.breakLength = 1 := by
    rcases hb with rfl | rfl | rfl <;> simp [Cursor.breakLength, hc, isBreak]
  have htext : c.breakText = [ch] := by
    rcases hb with rfl | rfl | rfl <;> simp [Cursor.breakText, hc, isBreak]
  rw [Cursor.skipBreak, hlength, if_neg Nat.one_ne_zero]
  refine ⟨?_, rfl, ?_, htext⟩
  · simp [hc]
  · have hleft := c.left_eq
    rw [hc, List.length_cons] at hleft
    simp [Cursor.skip, hleft]

end Breaks

/-! ## Gaps -/

namespace Scalar

lemma takeWhile_isWhite (hrest : AtWord rest) :
    (List.replicate k ' ' ++ rest).takeWhile isWhite = List.replicate k ' ' := by
  rw [List.takeWhile_append_of_pos (fun ch hch => by rw [List.eq_of_mem_replicate hch]; rfl)]
  cases rest with
  | nil => simp
  | cons ch rest => rw [List.takeWhile_cons_of_neg (by simp [(hrest ch rfl).1]), List.append_nil]

/-- The spaces between two words of a line. -/
lemma gapAt_spaces (margin : ℕ) (hc : c.rest = List.replicate k ' ' ++ rest) (hrest : AtWord rest) :
    gapAt margin false c = some (⟨List.replicate k ' ', false, [], []⟩, c.skip k) := by
  have hnext : (c.skip k).at? isBreak = false := by
    apply Cursor.at?_eq_false
    rw [Cursor.rest_skip_spaces hc]
    exact fun ch hch => (hrest ch hch).2
  unfold gapAt
  rw [hc, takeWhile_isWhite hrest]
  simp [hnext]

/-- Blank lines, and the indentation of the line behind them. -/
lemma blankLines_eq (margin fuel : ℕ) (breaks : List Char) {bs : List Char}
    (hbs : ∀ ch ∈ bs, IsPlainBreak ch) (hc : c.rest = bs ++ (List.replicate k ' ' ++ rest))
    (hcolumn : c.column = 0) (hrest : AtWord rest) (hfuel : bs.length < fuel) :
    ∃ c', blankLines margin fuel breaks c = some (bs.reverse ++ breaks, c') ∧ c'.rest = rest ∧
      c'.column = k := by
  induction bs generalizing fuel breaks c with
  | nil =>
    obtain ⟨fuel, rfl⟩ : ∃ m, fuel = m + 1 := ⟨fuel - 1, by omega⟩
    rw [List.nil_append] at hc
    have hskip := Cursor.rest_skip_spaces hc
    have hnext : (c.skip k).at? isBreak = false := by
      apply Cursor.at?_eq_false
      rw [hskip]
      exact fun ch hch => (hrest ch hch).2
    refine ⟨c.skip k, ?_, hskip, by rw [Cursor.column_skip, hcolumn, Nat.zero_add]⟩
    unfold blankLines
    simp [hc, takeWhile_isWhite hrest, hnext]
  | cons ch bs ih =>
    obtain ⟨fuel, rfl⟩ : ∃ m, fuel = m + 1 := ⟨fuel - 1, by omega⟩
    have hb := hbs ch List.mem_cons_self
    obtain ⟨hskip, hcolumn', -, htext⟩ := skipBreak_cons hb hc
    have hbreak := isBreak_of_isPlainBreak hb
    have hwhites : c.rest.takeWhile isWhite = [] := by
      rw [hc, List.cons_append, List.takeWhile_cons_of_neg (by
        simp [isWhite_eq_false_of_isBreak hbreak])]
    obtain ⟨c', hread, hc', hk⟩ := ih fuel (ch :: breaks)
      (fun d hd => hbs d (List.mem_cons_of_mem _ hd)) hskip hcolumn' (by simpa using hfuel)
    refine ⟨c', ?_, hc', hk⟩
    unfold blankLines
    have hat : c.at? isBreak = true := (Cursor.at?_cons hc).trans hbreak
    simp [hwhites, hat, htext, hread]

/-- Line breaks, and the indentation of the line behind them. -/
lemma gapAt_breaks (margin : ℕ) {ch : Char} {bs : List Char} (hb : IsPlainBreak ch)
    (hbs : ∀ d ∈ bs, IsPlainBreak d) (hc : c.rest = ch :: (bs ++ (List.replicate k ' ' ++ rest)))
    (hrest : AtWord rest) :
    ∃ c', gapAt margin false c = some (⟨[], true, [ch], bs⟩, c') ∧ c'.rest = rest ∧
      c'.column = k := by
  obtain ⟨hskip, hcolumn, hleft, htext⟩ := skipBreak_cons hb hc
  have hbreak := isBreak_of_isPlainBreak hb
  have hwhites : c.rest.takeWhile isWhite = [] := by
    rw [hc, List.takeWhile_cons_of_neg (by simp [isWhite_eq_false_of_isBreak hbreak])]
  have hat : c.at? isBreak = true := (Cursor.at?_cons hc).trans hbreak
  obtain ⟨c', hread, hc', hk⟩ := blankLines_eq margin (c.skipBreak.left + 1)
    [] hbs hskip hcolumn hrest (by rw [hleft, List.length_append]; omega)
  refine ⟨c', ?_, hc', hk⟩
  unfold gapAt
  simp [hwhites, hat, htext, hread]

end Scalar

end Arbor.Document
