import Arbor.Proofs.Lindenmayer.Generations
import Arbor.Proofs.Lindenmayer.RuleText
import Mathlib.Logic.Function.Iterate

/-!
# Words and the texts that write them

A word is written by one character for each symbol, and not every word can be read back: a letter
with the character of a command is written like that command, and one with white space is dropped.
`Word.Legible` says that a word has neither, and a legible word is what its text reads as
(`Legible.ofChars_toChars`), so it is told by its text.

Words that are read from a text are legible, and so are the replacements of productions that are
made of texts (`Productions.WrittenAs`).  A pass replaces symbols by such words and keeps the
others, so every word that can come up is legible (`Produced.legible`).  In its text a pass replaces
all characters at once (`toChars_nextWord`), so derivations can be followed in texts without any
symbols (`text_of_produced`).
-/

namespace Arbor

namespace Text

/-- A text without its white space. -/
def unspaced (t : List Char) : List Char := t.filter fun c => !isBlank c

lemma unspaced_eq_self {t : List Char} (h : ∀ c ∈ t, isBlank c = false) : unspaced t = t := by
  rw [unspaced, List.filter_eq_self]
  intro c hc
  simp [h c hc]

end Text

open Text

/-! ## Legible words -/

/-- The symbol is read from the character that writes it, which is no white space. -/
def Symbol.Legible (s : Symbol) : Prop := ofChar s.toChar = s ∧ isBlank s.toChar = false

instance : DecidablePred Symbol.Legible := fun s =>
  inferInstanceAs (Decidable (Symbol.ofChar s.toChar = s ∧ isBlank s.toChar = false))

lemma Symbol.legible_ofChar {c : Char} (h : isBlank c = false) : (ofChar c).Legible := by
  rw [Legible, toChar_ofChar]
  exact ⟨rfl, h⟩

namespace Word

/-- No letter of the word stands for a command or for white space. -/
def Legible (w : Word) : Prop := ∀ s ∈ w, s.Legible

instance : DecidablePred Legible := fun w => List.decidableBAll Symbol.Legible w

variable {v w : Word}

lemma legible_ofChars (t : List Char) : (ofChars t).Legible := by
  intro s hs
  obtain ⟨c, hc, rfl⟩ := List.mem_map.mp hs
  have hc := (List.mem_filter.mp hc).2
  exact Symbol.legible_ofChar (by simpa using hc)

lemma Legible.unspaced_toChars (h : w.Legible) : unspaced w.toChars = w.toChars := by
  apply unspaced_eq_self
  intro c hc
  obtain ⟨s, hs, rfl⟩ := List.mem_map.mp hc
  exact (h s hs).2

/-- A legible word is what its text reads as. -/
lemma Legible.ofChars_toChars (h : w.Legible) : ofChars w.toChars = w := by
  have hread : w.map (Symbol.ofChar ∘ Symbol.toChar) = w.map id :=
    List.map_congr_left fun s hs => (h s hs).1
  rw [ofChars, ← unspaced, h.unspaced_toChars, toChars, List.map_map, hread, List.map_id]

lemma Legible.ofText_toText (h : w.Legible) : ofText w.toText = w := by
  rw [ofText, toText, String.toList_ofList, h.ofChars_toChars]

lemma Legible.eq_iff (hv : v.Legible) (hw : w.Legible) : v = w ↔ v.toText = w.toText := by
  constructor
  · intro h
    rw [h]
  · intro h
    rw [← hv.ofText_toText, h, hw.ofText_toText]

example : toText [.letter 'F'] = toText [.forward] ∧ ¬ Legible [.letter 'F'] := by decide

end Word

namespace Productions

open Word

/-! ## Rules as texts -/

/-- The key of a line and the text behind its first colon, if it has a rule. -/
def rule? (line : List Char) : Option (Char × List Char) :=
  match splitAt? ':' line with
  | some (before, replacement) =>
    match trim before with
    | [key] => some (key, replacement)
    | _ => none
  | none => none

/-- Productions are made of texts, which are read line by line or put in rule by rule.  The list
has the keys with the texts that replace them, the one in force first. -/
inductive WrittenAs : Productions → List (Char × List Char) → Prop
  | empty : WrittenAs .empty []
  | insert {p : Productions} {rules : List (Char × List Char)} (hp : WrittenAs p rules)
    (key : Char) (text : String) :
    WrittenAs (p.insert (.ofChar key) (.ofText text)) ((key, text.toList) :: rules)
  | read {text : String} {p : Productions} (hread : ofText text = .ok p) :
    WrittenAs p ((lines text.toList).filterMap rule?)

/-- All characters of a text replaced at once: a character with a rule by its text without white
space, and any other by itself. -/
def substitute (rules : List (Char × List Char)) (t : List Char) : List Char :=
  t.flatMap fun c =>
    match rules.lookup c with
    | some replacement => unspaced replacement
    | none => [c]

variable {p q : Productions} {rules : List (Char × List Char)} {line : List Char}

lemma rule?_of_isRule {key : Char} {replacement : List Char} (h : IsRule line key replacement) :
    rule? line = some (key, replacement) := by
  obtain ⟨before, hsplit, hkey⟩ := h.splitAt?_eq
  simp [rule?, hsplit, hkey]

lemma rule?_of_empty (h : trim line = []) : rule? line = none := by
  have hcolon : ':' ∉ line := by
    intro hmem
    exact absurd (trim_eq_nil_iff.mp h ':' hmem) (by decide)
  simp [rule?, splitAt?_eq_none hcolon]

/-- A line that can be read adds no rule, or one for a new key. -/
lemma addLine_eq_ok (h : p.addLine line = .ok q) : trim line = [] ∧ q = p ∨
    ∃ key replacement, IsRule line key replacement ∧ p.get? (.ofChar key) = none ∧
      q = p.insert (.ofChar key) (.ofChars replacement) := by
  obtain (hempty | ⟨key, replacement, hrule⟩) | ⟨fault, hfaulty⟩ := wellFormed_or_faulty [] line
  · rw [addLine_of_empty hempty] at h
    cases h
    exact .inl ⟨hempty, rfl⟩
  · by_cases hfresh : p.get? (.ofChar key) = none
    · rw [addLine_of_rule hrule hfresh] at h
      cases h
      exact .inr ⟨key, replacement, hrule, hfresh, rfl⟩
    · -- A known key is refused as if this very line had come before.
      have hknown : ∀ other ∈ [line], ∀ key, HasKey other key → p.get? (.ofChar key) ≠ none := by
        intro other hother key' hkey'
        rw [List.mem_singleton.mp hother] at hkey'
        rwa [← HasKey.unique ⟨replacement, hrule⟩ hkey']
      rw [addLine_of_faulty hknown (.repeated ⟨_, hrule⟩ (List.mem_singleton_self line)
        ⟨_, hrule⟩)] at h
      cases h
  · rw [addLine_of_faulty (by simp) hfaulty] at h
    cases h

/-- Lines that can be read leave the rules that there are, and add those of their entries. -/
lemma get?_of_addLines {ls : List (List Char)} {n : ℕ} (h : p.addLines n ls = .ok q) (c : Char) :
    q.get? (.ofChar c) =
      (p.get? (.ofChar c)).or (((ls.filterMap rule?).lookup c).map .ofChars) := by
  induction ls generalizing p n with
  | nil =>
    cases h
    simp
  | cons line ls ih =>
    rw [addLines] at h
    cases hline : p.addLine line with
    | error fault => simp [hline] at h
    | ok next =>
      rw [hline] at h
      have hrest := ih h
      obtain ⟨hempty, rfl⟩ | ⟨key, replacement, hrule, hfresh, rfl⟩ := addLine_eq_ok hline
      · rw [List.filterMap_cons_none (rule?_of_empty hempty), hrest]
      · rw [List.filterMap_cons_some (rule?_of_isRule hrule), hrest, get?_insert]
        by_cases hc : c = key
        · rw [hc, if_pos rfl, hfresh, List.lookup_cons_self]
          rfl
        · have hne : Symbol.ofChar c ≠ .ofChar key := Symbol.ofChar_injective.ne hc
          rw [if_neg hne, List.lookup_cons, beq_false_of_ne hc]

/-- What a character is replaced by, in symbols and in its text. -/
lemma WrittenAs.get?_ofChar (h : p.WrittenAs rules) (c : Char) :
    p.get? (.ofChar c) = (rules.lookup c).map .ofChars := by
  induction h with
  | empty => rfl
  | insert _ key text ih =>
    rw [get?_insert]
    by_cases hc : c = key
    · rw [hc, if_pos rfl, List.lookup_cons_self]
      rfl
    · rw [if_neg (Symbol.ofChar_injective.ne hc), List.lookup_cons, beq_false_of_ne hc, ih]
  | read hread => exact get?_of_addLines hread c

/-! ## Passes in texts -/

/-- A legible symbol becomes a legible word, whose text is that of its character. -/
lemma WrittenAs.image (h : p.WrittenAs rules) {s : Symbol} (hs : s.Legible) :
    (p.image s).Legible ∧ (p.image s).toChars = substitute rules [s.toChar] := by
  have hget := h.get?_ofChar s.toChar
  rw [hs.1] at hget
  rw [Productions.image, hget, substitute, List.flatMap_singleton]
  cases rules.lookup s.toChar with
  | none => exact ⟨by simpa [Word.Legible] using hs, rfl⟩
  | some replacement => exact ⟨legible_ofChars replacement, toChars_ofChars replacement⟩

lemma WrittenAs.legible_nextWord (h : p.WrittenAs rules) {w : Word} (hw : w.Legible) :
    (p.nextWord w).Legible := by
  intro t ht
  obtain ⟨s, hs, himage⟩ := List.mem_flatMap.mp ht
  exact (h.image (hw s hs)).1 t himage

/-- A pass replaces all characters of a text at once. -/
lemma WrittenAs.toChars_nextWord (h : p.WrittenAs rules) {w : Word} (hw : w.Legible) :
    (p.nextWord w).toChars = substitute rules w.toChars := by
  induction w with
  | nil => rfl
  | cons s w ih =>
    obtain ⟨hs, hrest⟩ := List.forall_mem_cons.mp hw
    have himage := (h.image hs).2
    rw [substitute, List.flatMap_singleton] at himage
    have hsplit : (p.nextWord (s :: w)).toChars =
        (p.image s).toChars ++ (p.nextWord w).toChars := by
      rw [nextWord_cons, toChars, List.map_append]
      rfl
    rw [hsplit, ih hrest, himage]
    rfl

lemma WrittenAs.generation (h : p.WrittenAs rules) {start : Word} (hstart : start.Legible)
    (k : ℕ) : (p.generation start k).Legible ∧
      (p.generation start k).toChars = (substitute rules)^[k] start.toChars := by
  induction k with
  | zero => exact ⟨hstart, rfl⟩
  | succ k ih =>
    rw [generation_succ, Function.iterate_succ_apply', ← ih.2]
    exact ⟨h.legible_nextWord ih.1, h.toChars_nextWord ih.1⟩

/-! ## Words that come up -/

/-- Words that are read from a text, or derived from such a word by productions made of texts. -/
inductive Produced : Word → Prop
  | read (text : String) : Produced (.ofText text)
  | derived {start w : Word} {p : Productions} {rules : List (Char × List Char)} {n : ℕ}
    {limits : Limits} (hstart : Produced start) (hp : p.WrittenAs rules)
    (hw : p.derive start n limits = .ok w) : Produced w

lemma Produced.legible {w : Word} (h : Produced w) : w.Legible := by
  induction h with
  | read text => exact legible_ofChars text.toList
  | derived _ hp hw ih =>
    obtain ⟨-, -, rfl⟩ := (derive_eq_ok_iff ..).mp hw
    exact (hp.generation ih _).1

/-- A derivation from a text, in texts: when it succeeds, and what it gives. -/
lemma WrittenAs.derive_ofText (h : p.WrittenAs rules) (text : String) (n : ℕ) (limits : Limits) :
    ((∃ w, p.derive (.ofText text) n limits = .ok w) ↔ n ≤ limits.maxPasses ∧
      ∀ k ≤ n, ((substitute rules)^[k] (unspaced text.toList)).length ≤ limits.longest) ∧
    ∀ w, p.derive (.ofText text) n limits = .ok w →
      w.toText = String.ofList ((substitute rules)^[n] (unspaced text.toList)) := by
  have htext : ∀ k, (p.generation (.ofText text) k).toChars =
      (substitute rules)^[k] (unspaced text.toList) := by
    intro k
    rw [Word.ofText, (h.generation (legible_ofChars text.toList) k).2, toChars_ofChars, ← unspaced]
  constructor
  · simp only [derive_eq_ok_iff, exists_and_left, exists_eq, and_true, ← htext, toChars,
      List.length_map]
  · intro w hw
    obtain ⟨-, -, rfl⟩ := (derive_eq_ok_iff ..).mp hw
    rw [toText, htext]

/-- **Words and texts keep step.**  The text of a word that is read from a text is that text without
its white space.  Every word that is read, or derived from such words and rules, is read again from
its own text, so two of them are the same if their texts are.  A derivation from an axiom replaces
in its text, in each pass and all at once, every key by the text of its rule; it succeeds exactly if
it may have that many passes and no text on the way is longer than the limit. -/
theorem text_of_produced :
    (∀ text : String, (Word.ofText text).toText =
      String.ofList (text.toList.filter fun c => !isBlank c)) ∧
    (∀ w, Produced w → Word.ofText w.toText = w) ∧
    (∀ v w, Produced v → Produced w → (v = w ↔ v.toText = w.toText)) ∧
    ∀ p rules, WrittenAs p rules → ∀ (text : String) (n : ℕ) (limits : Limits),
      ((∃ w, p.derive (.ofText text) n limits = .ok w) ↔ n ≤ limits.maxPasses ∧
        ∀ k ≤ n, ((substitute rules)^[k] (unspaced text.toList)).length ≤ limits.longest) ∧
      ∀ w, p.derive (.ofText text) n limits = .ok w →
        w.toText = String.ofList ((substitute rules)^[n] (unspaced text.toList)) := by
  refine ⟨?_, ?_, ?_, ?_⟩
  · intro text
    rw [Word.ofText, toText, toChars_ofChars]
  · intro w hw
    exact hw.legible.ofText_toText
  · intro v w hv hw
    exact hv.legible.eq_iff hw.legible
  · intro p rules hp text n limits
    exact hp.derive_ofText text n limits

/-- Rules that are read with white space in them, of which one is put in anew, in two passes. -/
theorem text_of_produced_spaced : ∃ p rules w,
    ofText " F : F [+ X]\nX:F" = .ok p ∧
      WrittenAs (p.insert (.ofChar 'X') (.ofText "- x ")) rules ∧
      (p.insert (.ofChar 'X') (.ofText "- x ")).derive (.ofText "X\tF") 2 .usual = .ok w ∧
      Produced w ∧ Word.ofText w.toText = w ∧ w.toText = "-xF[+X][+-x]" := by
  have hok : (ofText " F : F [+ X]\nX:F").isOk = true := by decide
  cases hread : ofText " F : F [+ X]\nX:F" with
  | error e =>
    rw [hread] at hok
    cases hok
  | ok p =>
    have hwritten := WrittenAs.insert (.read hread) 'X' "- x "
    obtain ⟨-, hagain, -, htexts⟩ := text_of_produced
    obtain ⟨hderives, htext⟩ := htexts _ _ hwritten "X\tF" 2 .usual
    obtain ⟨w, hw⟩ := hderives.mpr (by decide)
    have hproduced : Produced w := .derived (.read "X\tF") hwritten hw
    exact ⟨p, _, w, rfl, hwritten, hw, hproduced, hagain w hproduced,
      (htext w hw).trans (by decide)⟩

end Productions

end Arbor
