import Arbor.Text.Blank
import Mathlib.Data.List.DropRight

/-!
# Lines and white space

How a line is cut at its first mark (`splitAt?_append`), what is left of it when the white space
around it is dropped (`trim_append_cons`), and which lines a text has when it is made of lines
with a line feed between any two (`lines_intercalate_cons`).  A carriage return before a line feed
goes with it, and an empty line at the end is none.
-/

namespace Arbor.Text

variable {t before rest : List Char} {c mark : Char}

/-! ## The first mark -/

lemma splitAt?_append (h : mark ∉ before) (rest : List Char) :
    splitAt? mark (before ++ mark :: rest) = some (before, rest) := by
  have hbefore : ∀ d ∈ before, (d != mark) = true := by
    intro d hd
    exact bne_iff_ne.mpr (ne_of_mem_of_not_mem hd h)
  rw [splitAt?, List.dropWhile_append_of_pos hbefore, List.takeWhile_append_of_pos hbefore,
    List.dropWhile_cons_of_neg (by simp), List.takeWhile_cons_of_neg (by simp), List.append_nil]

lemma splitAt?_eq_none (h : mark ∉ t) : splitAt? mark t = none := by
  have hall : t.dropWhile (· != mark) = [] := by
    rw [List.dropWhile_eq_nil_iff]
    intro d hd
    exact bne_iff_ne.mpr (ne_of_mem_of_not_mem hd h)
  rw [splitAt?, hall]

/-! ## White space around a text -/

lemma trimStart_eq_nil_iff : trimStart t = [] ↔ ∀ c ∈ t, isBlank c = true :=
  List.dropWhile_eq_nil_iff

lemma trimEnd_eq_nil_iff : trimEnd t = [] ↔ ∀ c ∈ t, isBlank c = true := by
  simp [trimEnd]

/-- What is dropped at the end is white space. -/
lemma exists_eq_trimEnd_append (t : List Char) :
    ∃ blanks, t = trimEnd t ++ blanks ∧ ∀ c ∈ blanks, isBlank c = true := by
  refine ⟨t.rtakeWhile isBlank, List.rdropWhile_append_rtakeWhile.symm, ?_⟩
  intro c hc
  exact List.mem_rtakeWhile_imp hc

lemma trimEnd_append_cons (hc : isBlank c = false) (before rest : List Char) :
    trimEnd (before ++ c :: rest) = before ++ c :: trimEnd rest := by
  rw [trimEnd, List.reverse_append, List.reverse_cons, List.append_assoc, List.dropWhile_append]
  split
  case isTrue h =>
    have hrest : trimEnd rest = [] := by rw [trimEnd, List.isEmpty_iff.mp h, List.reverse_nil]
    simp [hc, hrest]
  case isFalse h => simp [trimEnd]

lemma trimStart_append_cons (hc : isBlank c = false) (before rest : List Char) :
    trimStart (before ++ c :: rest) = trimStart before ++ c :: rest := by
  rw [trimStart, List.dropWhile_append]
  split
  case isTrue h => simp [trimStart, List.isEmpty_iff.mp h, hc]
  case isFalse h => rfl

/-- A character that is no white space keeps apart what is dropped before and behind it. -/
lemma trim_append_cons (hc : isBlank c = false) (before rest : List Char) :
    trim (before ++ c :: rest) = trimStart before ++ c :: trimEnd rest := by
  rw [trim, trimStart_append_cons hc, trimEnd_append_cons hc]

lemma trim_trimStart (t : List Char) : trim (trimStart t) = trim t := by
  have hstart : trimStart (trimStart t) = trimStart t := List.dropWhile_idempotent isBlank t
  rw [trim, hstart, trim]

lemma trim_eq_nil_iff : trim t = [] ↔ ∀ c ∈ t, isBlank c = true := by
  constructor
  · intro h
    have hstart : trimStart t = [] := by
      by_contra hne
      obtain ⟨c, rest, hcons⟩ := List.exists_cons_of_ne_nil hne
      have hblank : isBlank c = true := trimEnd_eq_nil_iff.mp h c (by simp [hcons])
      have hfirst := List.head?_dropWhile_not isBlank t
      rw [show t.dropWhile isBlank = c :: rest from hcons] at hfirst
      simp [hblank] at hfirst
    exact trimStart_eq_nil_iff.mp hstart
  · intro h
    rw [trim, trimStart_eq_nil_iff.mpr h]
    rfl

lemma trim_single {lead gap : List Char} (hlead : ∀ d ∈ lead, isBlank d = true)
    (hc : isBlank c = false) (hgap : ∀ d ∈ gap, isBlank d = true) :
    trim (lead ++ c :: gap) = [c] := by
  rw [trim_append_cons hc, trimStart_eq_nil_iff.mpr hlead, trimEnd_eq_nil_iff.mpr hgap,
    List.nil_append]

lemma trim_prefix_trimStart (t : List Char) : trim t <+: trimStart t :=
  List.rdropWhile_prefix isBlank _

lemma trim_infix (t : List Char) : trim t <:+: t :=
  (trim_prefix_trimStart t).isInfix.trans (List.dropWhile_suffix isBlank).isInfix

/-- Trimming twice is trimming once: the first character that is left is that of the text without
the white space in front, which is no white space. -/
lemma trim_trim (t : List Char) : trim (trim t) = trim t := by
  have hstart : trimStart (trim t) = trim t := by
    rw [trimStart, List.dropWhile_eq_self_iff]
    intro hl
    have hpre := trim_prefix_trimStart t
    have hfirst := List.dropWhile_eq_self_iff.mp (List.dropWhile_idempotent (p := isBlank) (l := t))
      (hl.trans_le hpre.length_le)
    rwa [hpre.getElem hl]
  have hend : trimEnd (trimEnd (trimStart t)) = trimEnd (trimStart t) :=
    List.rdropWhile_idempotent isBlank _
  rw [trim, hstart, trim, hend]

/-- A map that keeps white space apart from the rest may be applied before or after trimming. -/
lemma trim_map {f : Char → Char} (hf : ∀ c, isBlank (f c) = isBlank c) (t : List Char) :
    trim (t.map f) = (trim t).map f := by
  have hcomp : isBlank ∘ f = isBlank := funext hf
  rw [trim, trimStart, trimEnd, List.dropWhile_map, hcomp, ← List.map_reverse, List.dropWhile_map,
    hcomp, ← List.map_reverse]
  rfl

/-! ## Texts made of lines -/

lemma pieces_of_not_mem (h : '\n' ∉ t) : pieces t = [t] := by
  induction t with
  | nil => rfl
  | cons c t ih =>
    obtain ⟨hc, ht⟩ := not_or.mp (mt List.mem_cons.mpr h)
    rw [pieces, List.foldr_cons, ← pieces, ih ht, if_neg (Ne.symm hc)]

lemma pieces_append_cons (h : '\n' ∉ t) (rest : List Char) :
    pieces (t ++ '\n' :: rest) = t :: pieces rest := by
  induction t with
  | nil => rfl
  | cons c t ih =>
    obtain ⟨hc, ht⟩ := not_or.mp (mt List.mem_cons.mpr h)
    rw [pieces, List.cons_append, List.foldr_cons, ← pieces, ih ht, if_neg (Ne.symm hc)]

lemma pieces_ne_nil (t : List Char) : pieces t ≠ [] := by
  by_cases h : '\n' ∈ t
  · obtain ⟨before, rest, rfl, hbefore⟩ := List.eq_append_cons_of_mem h
    rw [pieces_append_cons hbefore]
    exact List.cons_ne_nil _ _
  · rw [pieces_of_not_mem h]
    exact List.cons_ne_nil _ _

lemma lines_of_not_mem (h : '\n' ∉ t) : lines t = if t = [] then [] else [t] := by
  rw [lines, pieces_of_not_mem h]
  cases t <;> rfl

lemma lines_append_cons (h : '\n' ∉ t) (rest : List Char) :
    lines (t ++ '\n' :: rest) = withoutReturn t :: lines rest := by
  rw [lines, pieces_append_cons h, List.dropLast_cons_of_ne_nil (pieces_ne_nil rest),
    List.getLast?_cons_of_ne_nil (pieces_ne_nil rest), List.map_cons, List.cons_append]
  rfl

/-- The first line of a text that is made of lines: it is there as it was put in, or without the
carriage return at its end, or not at all if it was empty. -/
lemma lines_intercalate_cons (h : '\n' ∉ t) (ls : List (List Char)) :
    ∃ first, lines (['\n'].intercalate (t :: ls)) = first ++ lines (['\n'].intercalate ls) ∧
      (first = [] ∧ t = [] ∨ first = [t] ∨ first = [withoutReturn t]) := by
  cases ls with
  | nil =>
    have hjoin : ['\n'].intercalate [t] = t := by simp [List.intercalate]
    rw [hjoin, lines_of_not_mem h]
    by_cases ht : t = []
    · exact ⟨[], by simp [ht, List.intercalate, lines, pieces], .inl ⟨rfl, ht⟩⟩
    · exact ⟨[t], by simp [ht, List.intercalate, lines, pieces], .inr (.inl rfl)⟩
  | cons l ls =>
    have hjoin : ['\n'].intercalate (t :: l :: ls) = t ++ '\n' :: ['\n'].intercalate (l :: ls) := by
      simp [List.intercalate, List.intersperse]
    rw [hjoin, lines_append_cons h]
    exact ⟨[withoutReturn t], rfl, .inr (.inr rfl)⟩

end Arbor.Text
