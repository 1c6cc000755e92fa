import Arbor.Proofs.Lindenmayer.Rules
import Arbor.Proofs.Text.Lines
import Mathlib.Order.Bounds.Basic

/-!
# Rules written as lines

Which texts are read as rules.  A line has a rule if the text before its first colon is one
character with white space around it (`IsRule`); then all that is behind that colon is the
replacement, further colons included.  A line of white space has no rule, and every other line is
ill-formed.

`Writes ls rules` says that the lines have these rules, one after the other.  They are read one by
one, so a text is read if each line is well-formed and no key comes twice (`addLines_of_writes`),
and the first line that is not so is the one that is reported (`addLines_of_faulty`,
`rules_of_lines`).
-/

namespace Arbor.Productions

open Text

variable {p : Productions} {line before replacement : List Char} {ls earlier : List (List Char)}
  {key : Char} {fault : RuleFault} {rules : List (Symbol × Word)}

/-! ## What a line may be -/

/-- One character is all the text before the first colon of the line, and `replacement` is
everything behind that colon. -/
def IsRule (line : List Char) (key : Char) (replacement : List Char) : Prop :=
  ∃ before, line = before ++ ':' :: replacement ∧ ':' ∉ before ∧ trim before = [key]

/-- The line has a rule for `key`. -/
def HasKey (line : List Char) (key : Char) : Prop := ∃ replacement, IsRule line key replacement

/-- The line has a rule or no text. -/
def WellFormed (line : List Char) : Prop := trim line = [] ∨ ∃ key, HasKey line key

/-- What is wrong with a line that comes behind `earlier` ones. -/
inductive Faulty (earlier : List (List Char)) (line : List Char) : RuleFault → Prop
  | noColon (htext : trim line ≠ []) (hcolon : ':' ∉ line) :
    Faulty earlier line (.noColon (trim line))
  | badKey {before replacement : List Char} (hline : line = before ++ ':' :: replacement)
    (hfirst : ':' ∉ before) (hkey : (trim before).length ≠ 1) :
    Faulty earlier line (.badKey (trim before))
  | repeated {key : Char} {other : List Char} (hkey : HasKey line key) (hother : other ∈ earlier)
    (hearlier : HasKey other key) : Faulty earlier line (.repeated (.ofChar key))

/-- Line `n`, counted from 1, is ill-formed or has the key of an earlier line. -/
def Offends (ls : List (List Char)) (n : ℕ) : Prop :=
  ∃ before line behind, ls = before ++ line :: behind ∧ n = before.length + 1 ∧
    (¬WellFormed line ∨ ∃ key, HasKey line key ∧ ∃ other ∈ before, HasKey other key)

/-- No line of the list has the key of another one. -/
def KeysDiffer (ls : List (List Char)) : Prop :=
  ls.Pairwise fun a b => ∀ key, HasKey a key → ¬HasKey b key

/-! ## One line -/

lemma IsRule.splitAt?_eq (h : IsRule line key replacement) :
    ∃ before, splitAt? ':' line = some (before, replacement) ∧ trim before = [key] := by
  obtain ⟨before, rfl, hfirst, hkey⟩ := h
  exact ⟨before, splitAt?_append hfirst replacement, hkey⟩

lemma IsRule.unique {key' : Char} {replacement' : List Char} (h : IsRule line key replacement)
    (h' : IsRule line key' replacement') : key = key' ∧ replacement = replacement' := by
  obtain ⟨before, hsplit, hkey⟩ := h.splitAt?_eq
  obtain ⟨before', hsplit', hkey'⟩ := h'.splitAt?_eq
  rw [hsplit] at hsplit'
  cases hsplit'
  rw [hkey] at hkey'
  cases hkey'
  exact ⟨rfl, rfl⟩

lemma HasKey.unique {key' : Char} (h : HasKey line key) (h' : HasKey line key') : key = key' :=
  (h.choose_spec.unique h'.choose_spec).1

lemma IsRule.trim_ne_nil (h : IsRule line key replacement) : trim line ≠ [] := by
  obtain ⟨before, rfl, -, -⟩ := h
  rw [trim_append_cons (by decide)]
  simp

lemma ofChars_trimEnd (t : List Char) : Word.ofChars (trimEnd t) = Word.ofChars t := by
  obtain ⟨blanks, ht, hblanks⟩ := exists_eq_trimEnd_append t
  conv_rhs => rw [ht]
  rw [Word.ofChars_append, Word.ofChars_eq_nil hblanks, List.append_nil]

lemma addLine_of_empty (h : trim line = []) : p.addLine line = .ok p := by
  simp [addLine, h]

lemma addLine_of_noColon (htext : trim line ≠ []) (hcolon : ':' ∉ line) :
    p.addLine line = .error (.noColon (trim line)) := by
  have hnone : splitAt? ':' (trim line) = none := by
    apply splitAt?_eq_none
    intro hmem
    have hpart := trim_infix line
    exact hcolon (hpart.subset hmem)
  simp [addLine, htext, hnone]

/-- A line with a colon is read by what is before the first one. -/
lemma addLine_of_colon (hfirst : ':' ∉ before) (replacement : List Char) :
    p.addLine (before ++ ':' :: replacement) =
      match trim before with
      | [c] => if (p.get? (.ofChar c)).isSome then .error (.repeated (.ofChar c))
        else .ok (p.insert (.ofChar c) (.ofChars replacement))
      | key => .error (.badKey key) := by
  have hstart : ':' ∉ trimStart before := fun hmem => hfirst (List.dropWhile_subset _ hmem)
  have hsplit : splitAt? ':' (trim (before ++ ':' :: replacement)) =
      some (trimStart before, trimEnd replacement) := by
    rw [trim_append_cons (by decide), splitAt?_append hstart]
  have htext : (trim (before ++ ':' :: replacement)).isEmpty = false := by
    rw [trim_append_cons (by decide)]
    simp
  rcases hkey : trim before with _ | ⟨c, _ | ⟨d, rest⟩⟩ <;>
    simp [addLine, htext, hsplit, trim_trimStart, ofChars_trimEnd, hkey]

lemma addLine_of_rule (h : IsRule line key replacement) (hfresh : p.get? (.ofChar key) = none) :
    p.addLine line = .ok (p.insert (.ofChar key) (.ofChars replacement)) := by
  obtain ⟨before, rfl, hfirst, hkey⟩ := h
  simp [addLine_of_colon hfirst, hkey, hfresh]

/-- A faulty line is refused for its fault. -/
lemma addLine_of_faulty
    (hearlier : ∀ other ∈ earlier, ∀ key, HasKey other key → p.get? (.ofChar key) ≠ none)
    (h : Faulty earlier line fault) : p.addLine line = .error fault := by
  cases h with
  | noColon htext hcolon => exact addLine_of_noColon htext hcolon
  | badKey hline hfirst hkey =>
    rw [hline, addLine_of_colon hfirst]
    split
    case h_1 c hc => simp [hc] at hkey
    case h_2 => rfl
  | @repeated key other hkey hother hhas =>
    obtain ⟨replacement, before, rfl, hfirst, htrim⟩ := hkey
    have hknown := Option.isSome_iff_ne_none.mpr (hearlier other hother key hhas)
    simp [addLine_of_colon hfirst, htrim, hknown]

/-- A line that is not well-formed is faulty by itself. -/
lemma wellFormed_or_faulty (earlier : List (List Char)) (line : List Char) :
    WellFormed line ∨ ∃ fault, Faulty earlier line fault := by
  by_cases htext : trim line = []
  · exact .inl (.inl htext)
  by_cases hcolon : ':' ∈ line
  · obtain ⟨before, replacement, hline, hfirst⟩ := List.eq_append_cons_of_mem hcolon
    by_cases hkey : (trim before).length = 1
    · obtain ⟨key, hkey⟩ := List.length_eq_one_iff.mp hkey
      exact .inl (.inr ⟨key, replacement, before, hline, hfirst, hkey⟩)
    · exact .inr ⟨_, .badKey hline hfirst hkey⟩
  · exact .inr ⟨_, .noColon htext hcolon⟩

/-- A well-formed line can only be faulty for its key. -/
lemma Faulty.exists_key (h : Faulty earlier line fault) (hline : WellFormed line) :
    ∃ key, HasKey line key ∧ (∃ other ∈ earlier, HasKey other key) ∧
      fault = .repeated (.ofChar key) := by
  cases h with
  | noColon htext hcolon =>
    obtain hempty | ⟨key, replacement, before, rfl, -, -⟩ := hline
    · exact absurd hempty htext
    · simp at hcolon
  | badKey hcut hfirst hkey =>
    obtain hempty | ⟨key, replacement, hrule⟩ := hline
    · rw [hcut, trim_append_cons (by decide)] at hempty
      simp at hempty
    · obtain ⟨before, hsplit, htrim⟩ := hrule.splitAt?_eq
      rw [hcut, splitAt?_append hfirst] at hsplit
      cases hsplit
      simp [htrim] at hkey
  | repeated hkey hother hhas => exact ⟨_, hkey, ⟨_, hother, hhas⟩, rfl⟩

lemma Faulty.offends (h : Faulty earlier line fault) :
    ¬WellFormed line ∨ ∃ key, HasKey line key ∧ ∃ other ∈ earlier, HasKey other key := by
  by_cases hline : WellFormed line
  · obtain ⟨key, hkey, hother, -⟩ := h.exists_key hline
    exact .inr ⟨key, hkey, hother⟩
  · exact .inl hline

/-! ## The rules of lines -/

/-- The lines are well-formed and have these rules, one after the other. -/
inductive Writes : List (List Char) → List (Symbol × Word) → Prop
  | nil : Writes [] []
  | empty {line : List Char} {ls : List (List Char)} {rules : List (Symbol × Word)}
    (hempty : trim line = []) (hls : Writes ls rules) : Writes (line :: ls) rules
  | rule {line replacement : List Char} {key : Char} {ls : List (List Char)}
    {rules : List (Symbol × Word)} (hrule : IsRule line key replacement) (hls : Writes ls rules) :
    Writes (line :: ls) ((.ofChar key, .ofChars replacement) :: rules)

namespace Writes

lemma exists_of_wellFormed (h : ∀ line ∈ ls, WellFormed line) : ∃ rules, Writes ls rules := by
  induction ls with
  | nil => exact ⟨[], .nil⟩
  | cons line ls ih =>
    obtain ⟨hline, hls⟩ := List.forall_mem_cons.mp h
    obtain ⟨rules, hrules⟩ := ih hls
    obtain hempty | ⟨key, replacement, hrule⟩ := hline
    · exact ⟨rules, .empty hempty hrules⟩
    · exact ⟨_, .rule hrule hrules⟩

lemma wellFormed (h : Writes ls rules) : ∀ line ∈ ls, WellFormed line := by
  induction h with
  | nil => simp
  | empty hempty _ ih => exact List.forall_mem_cons.mpr ⟨.inl hempty, ih⟩
  | rule hrule _ ih => exact List.forall_mem_cons.mpr ⟨.inr ⟨_, _, hrule⟩, ih⟩

lemma mem_iff (h : Writes ls rules) {s : Symbol} {w : Word} : (s, w) ∈ rules ↔
    ∃ line ∈ ls, ∃ key replacement, IsRule line key replacement ∧ .ofChar key = s ∧
      .ofChars replacement = w := by
  induction h with
  | nil => simp
  | empty hempty _ ih =>
    rw [ih, List.exists_mem_cons_iff]
    refine (or_iff_right ?_).symm
    rintro ⟨key, replacement, hrule, -⟩
    exact hrule.trim_ne_nil hempty
  | @rule line replacement key ls rules hrule _ ih =>
    rw [List.mem_cons, List.exists_mem_cons_iff, ih]
    refine or_congr_left ⟨?_, ?_⟩
    · intro heq
      cases heq
      exact ⟨key, replacement, hrule, rfl, rfl⟩
    · rintro ⟨key', replacement', hrule', rfl, rfl⟩
      obtain ⟨rfl, rfl⟩ := hrule.unique hrule'
      rfl

lemma mem_keys_iff (h : Writes ls rules) : Symbol.ofChar key ∈ rules.map Prod.fst ↔
    ∃ line ∈ ls, HasKey line key := by
  rw [List.mem_map]
  constructor
  · rintro ⟨⟨s, w⟩, hmem, rfl⟩
    obtain ⟨line, hline, key', replacement, hrule, hkey, -⟩ := h.mem_iff.mp hmem
    cases Symbol.ofChar_injective hkey
    exact ⟨line, hline, replacement, hrule⟩
  · rintro ⟨line, hline, replacement, hrule⟩
    exact ⟨_, h.mem_iff.mpr ⟨line, hline, key, replacement, hrule, rfl, rfl⟩, rfl⟩

lemma nodup_iff (h : Writes ls rules) : (rules.map Prod.fst).Nodup ↔ KeysDiffer ls := by
  induction h with
  | nil => exact iff_of_true List.nodup_nil List.Pairwise.nil
  | empty hempty hrest ih =>
    rw [ih, KeysDiffer, KeysDiffer, List.pairwise_cons]
    refine (and_iff_right ?_).symm
    rintro other - key ⟨replacement, hrule⟩
    exact absurd hempty hrule.trim_ne_nil
  | @rule line replacement key ls rules hrule hrest ih =>
    rw [List.map_cons, List.nodup_cons, ih, KeysDiffer, KeysDiffer, List.pairwise_cons,
      hrest.mem_keys_iff]
    refine and_congr_left fun _ => ⟨?_, ?_⟩
    · intro hfresh other hother key' hkey' hhas
      cases HasKey.unique ⟨_, hrule⟩ hkey'
      exact hfresh ⟨other, hother, hhas⟩
    · rintro hdiffer ⟨other, hother, hhas⟩
      exact hdiffer other hother key ⟨replacement, hrule⟩ hhas

lemma length_eq (h : Writes ls rules) : rules.length = ls.countP fun line => trim line ≠ [] := by
  induction h with
  | nil => rfl
  | empty hempty _ ih => rw [List.countP_cons_of_neg (by simp [hempty]), ih]
  | rule hrule _ ih =>
    rw [List.countP_cons_of_pos (by simp [hrule.trim_ne_nil]), List.length_cons, ih]

end Writes

/-! ## Reading lines one by one -/

/-- Lines whose keys differ, and are new, are read as the rules that they have. -/
lemma addLines_of_writes (h : Writes ls rules) (n : ℕ) (hdiffer : (rules.map Prod.fst).Nodup)
    (hfresh : ∀ s ∈ rules.map Prod.fst, p.get? s = none) (rest : List (List Char)) :
    p.addLines n (ls ++ rest) = (p.insertAll rules).addLines (n + ls.length) rest := by
  induction h generalizing p n with
  | nil => rfl
  | empty hempty _ ih =>
    rw [List.cons_append, addLines, addLine_of_empty hempty, List.length_cons]
    simp only
    rw [ih (n + 1) hdiffer hfresh, Nat.add_right_comm, Nat.add_assoc]
  | @rule line replacement key ls rules hrule _ ih =>
    rw [List.map_cons, List.nodup_cons] at hdiffer
    rw [List.map_cons, List.forall_mem_cons] at hfresh
    have hnext : ∀ s ∈ rules.map Prod.fst,
        (p.insert (.ofChar key) (.ofChars replacement)).get? s = none := by
      intro s hs
      rw [get?_insert, if_neg (ne_of_mem_of_not_mem hs hdiffer.1), hfresh.2 s hs]
    rw [List.cons_append, addLines, addLine_of_rule hrule hfresh.1, List.length_cons]
    simp only
    rw [ih (n + 1) hdiffer.2 hnext, Nat.add_right_comm, Nat.add_assoc]
    rfl

lemma addLines_of_accepted (h : Writes ls rules) (hdiffer : (rules.map Prod.fst).Nodup) :
    empty.addLines 1 ls = .ok (empty.insertAll rules) := by
  have hread := addLines_of_writes h 1 hdiffer (p := empty) (fun _ _ => get?_empty) []
  rwa [List.append_nil] at hread

/-- A faulty line behind lines that can be read is reported with its number. -/
lemma addLines_of_faulty (h : Writes earlier rules) (hdiffer : (rules.map Prod.fst).Nodup)
    (hfaulty : Faulty earlier line fault) (behind : List (List Char)) :
    empty.addLines 1 (earlier ++ line :: behind) =
      .error (.invalidRule (earlier.length + 1) fault) := by
  have hknown : ∀ other ∈ earlier, ∀ key, HasKey other key →
      (empty.insertAll rules).get? (.ofChar key) ≠ none := by
    rintro other hother key ⟨replacement, hrule⟩
    have hmem := h.mem_iff.mpr ⟨other, hother, key, replacement, hrule, rfl, rfl⟩
    simp [get?_insertAll_of_mem hdiffer hmem]
  rw [addLines_of_writes h 1 hdiffer (fun _ _ => get?_empty), addLines,
    addLine_of_faulty hknown hfaulty, Nat.add_comm 1 earlier.length]

/-- Lines are accepted, or there is a first faulty one. -/
lemma accepted_or_faulty (ls : List (List Char)) :
    (∃ rules, Writes ls rules ∧ (rules.map Prod.fst).Nodup) ∨
      ∃ before line behind fault, ls = before ++ line :: behind ∧
        (∃ rules, Writes before rules ∧ (rules.map Prod.fst).Nodup) ∧ Faulty before line fault := by
  induction ls using List.reverseRecOn with
  | nil => exact .inl ⟨[], .nil, List.nodup_nil⟩
  | append_singleton ls line ih =>
    obtain hls | ⟨before, other, behind, fault, rfl, hbefore, hfaulty⟩ := ih
    · obtain hline | ⟨fault, hfaulty⟩ := wellFormed_or_faulty ls line
      · by_cases hrepeats : ∃ key, HasKey line key ∧ ∃ other ∈ ls, HasKey other key
        · obtain ⟨key, hkey, other, hother, hhas⟩ := hrepeats
          exact .inr ⟨ls, line, [], _, rfl, hls, .repeated hkey hother hhas⟩
        · obtain ⟨rules, hwrites, hdiffer⟩ := hls
          have hall : ∀ l ∈ ls ++ [line], WellFormed l := by
            simpa [or_imp, forall_and] using ⟨hwrites.wellFormed, hline⟩
          obtain ⟨rules', hwrites'⟩ := Writes.exists_of_wellFormed hall
          refine .inl ⟨rules', hwrites', hwrites'.nodup_iff.mpr ?_⟩
          rw [KeysDiffer, List.pairwise_append]
          refine ⟨hwrites.nodup_iff.mp hdiffer, List.pairwise_singleton _ _, ?_⟩
          intro other hother l hl key hhas hkey
          cases List.mem_singleton.mp hl
          exact hrepeats ⟨key, hkey, other, hother, hhas⟩
      · exact .inr ⟨ls, line, [], fault, rfl, hls, hfaulty⟩
    · exact .inr ⟨before, other, behind ++ [line], fault, by simp, hbefore, hfaulty⟩

/-- No line offends before the first faulty one. -/
lemma isLeast_offends {behind : List (List Char)} (h : Writes earlier rules)
    (hdiffer : (rules.map Prod.fst).Nodup) (hfaulty : Faulty earlier line fault) :
    IsLeast {n | Offends (earlier ++ line :: behind) n} (earlier.length + 1) := by
  refine ⟨⟨earlier, line, behind, rfl, rfl, hfaulty.offends⟩, ?_⟩
  rintro n ⟨before, other, rest, hls, rfl, hoffends⟩
  by_contra hlt
  -- Otherwise the offending line is one of those that can be read.
  obtain ⟨mid, rfl⟩ : ∃ mid, earlier = before ++ other :: mid := by
    obtain ⟨mid, hearlier, hrest⟩ | ⟨mid, hbefore, -⟩ := List.append_eq_append_iff.mp hls.symm
    · cases mid with
      | nil =>
        rw [List.append_nil] at hearlier
        rw [hearlier] at hlt
        exact absurd le_rfl hlt
      | cons l mid =>
        cases hrest
        exact ⟨mid, hearlier⟩
    · rw [hbefore, List.length_append] at hlt
      omega
  have hpairs := h.nodup_iff.mp hdiffer
  rw [KeysDiffer, List.pairwise_append] at hpairs
  obtain hill | ⟨key, hkey, l, hl, hhas⟩ := hoffends
  · exact hill (h.wellFormed other (by simp))
  · exact hpairs.2.2 l hl other (by simp) key hhas hkey

/-- **A text is read as rules line by line.**  It is read exactly if every line is well-formed and
no two lines have the same key.  Then a symbol is replaced by what is behind the first colon of
the line with its key, without the white space, and there is one rule for each line with text.
Otherwise the first line that is ill-formed or repeats an earlier key is reported, with its number
and what is wrong with it. -/
theorem rules_of_lines (text : String) :
    ((∃ p, ofText text = .ok p) ↔
      (∀ line ∈ lines text.toList, WellFormed line) ∧ KeysDiffer (lines text.toList)) ∧
    (∀ p, ofText text = .ok p →
      (∀ line ∈ lines text.toList, ∀ key replacement, IsRule line key replacement →
        p.get? (.ofChar key) = some (.ofChars replacement) ∧
          (Word.ofChars replacement).toChars = replacement.filter fun c => !isBlank c) ∧
      (∀ s, (∀ line ∈ lines text.toList, ∀ key, HasKey line key → .ofChar key ≠ s) →
        p.get? s = none) ∧
      p.size = (lines text.toList).countP fun line => trim line ≠ []) ∧
    (∀ e, ofText text = .error e → ∃ before line behind fault,
      lines text.toList = before ++ line :: behind ∧
        e = .invalidRule (before.length + 1) fault ∧ Faulty before line fault ∧
          IsLeast {n | Offends (lines text.toList) n} (before.length + 1)) := by
  obtain ⟨rules, hwrites, hdiffer⟩ | ⟨before, line, behind, fault, hls, ⟨rules, hwrites, hdiffer⟩,
    hfaulty⟩ := accepted_or_faulty (lines text.toList)
  · have hread : ofText text = .ok (empty.insertAll rules) := addLines_of_accepted hwrites hdiffer
    have hperm := insertAll_rules_perm hdiffer
    refine ⟨iff_of_true ⟨_, hread⟩ ⟨hwrites.wellFormed, hwrites.nodup_iff.mp hdiffer⟩, ?_, ?_⟩
    · intro p hp
      rw [hread] at hp
      cases hp
      refine ⟨?_, ?_, ?_⟩
      · intro line hline key replacement hrule
        have hmem := hwrites.mem_iff.mpr ⟨line, hline, key, replacement, hrule, rfl, rfl⟩
        exact ⟨get?_insertAll_of_mem hdiffer hmem, Word.toChars_ofChars replacement⟩
      · intro s hnone
        apply get?_insertAll_of_not_mem
        intro hs
        obtain ⟨⟨s, w⟩, hmem, rfl⟩ := List.mem_map.mp hs
        obtain ⟨line, hline, key, replacement, hrule, hkey, -⟩ := hwrites.mem_iff.mp hmem
        exact hnone line hline key ⟨replacement, hrule⟩ hkey
      · rw [size, hperm.length_eq, hwrites.length_eq]
    · intro e he
      rw [hread] at he
      cases he
  · have hread : ofText text = .error (.invalidRule (before.length + 1) fault) := by
      rw [ofText, hls]
      exact addLines_of_faulty hwrites hdiffer hfaulty behind
    refine ⟨iff_of_false ?_ ?_, ?_, ?_⟩
    · rintro ⟨p, hp⟩
      rw [hread] at hp
      cases hp
    · rintro ⟨hall, hpairs⟩
      rw [hls] at hall hpairs
      rw [KeysDiffer, List.pairwise_append] at hpairs
      obtain hill | ⟨key, hkey, other, hother, hhas⟩ := hfaulty.offends
      · exact hill (hall line (by simp))
      · exact hpairs.2.2 other hother line (by simp) key hhas hkey
    · intro p hp
      rw [hread] at hp
      cases hp
    · intro e he
      rw [hread] at he
      cases he
      refine ⟨before, line, behind, fault, hls, rfl, hfaulty, ?_⟩
      rw [hls]
      exact isLeast_offends hwrites hdiffer hfaulty

end Arbor.Productions
