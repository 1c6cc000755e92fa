import Arbor.Proofs.Lindenmayer.RuleText

/-!
# The order of rules

Rules can be put in one after the other (`ofRules`) or written as the lines of a text, with empty
lines between them and white space around the key and around the replacement (`Lays`).  As long as
no key comes twice, both ways and every order lead to the same productions
(`ofText_agrees_ofRules`).  A key that comes twice tells them apart: the last rule put in stays,
and the text is refused at the first line with a key of an earlier one.
-/

namespace Arbor.Productions

open Text

variable {line replacement : List Char} {ls : List (List Char)} {key : Char}
  {rules : List (Char × String)}

/-! ## Rules that are put in -/

/-- The productions with rules put in one after the other. -/
def ofRules (rules : List (Char × String)) : Productions :=
  rules.foldl (fun p r => p.insert (.ofChar r.1) (.ofText r.2)) empty

/-- The rule that a character and a text stand for. -/
def spelled (rule : Char × String) : Symbol × Word := (.ofChar rule.1, .ofText rule.2)

lemma ofRules_eq (rules : List (Char × String)) :
    ofRules rules = empty.insertAll (rules.map spelled) := by
  rw [ofRules, insertAll, List.foldl_map]
  rfl

lemma map_spelled_keys (rules : List (Char × String)) :
    (rules.map spelled).map Prod.fst = (rules.map Prod.fst).map Symbol.ofChar := by
  rw [List.map_map, List.map_map]
  rfl

lemma nodup_spelled_iff (rules : List (Char × String)) :
    ((rules.map spelled).map Prod.fst).Nodup ↔ (rules.map Prod.fst).Nodup := by
  rw [map_spelled_keys, List.nodup_map_iff Symbol.ofChar_injective]

/-! ## Rules that are written as lines -/

/-- White space within a line. -/
def Padding (t : List Char) : Prop := ∀ c ∈ t, isBlank c = true ∧ c ≠ '\n'

-- Decided character by character of the text, and not over all characters there are.
instance : DecidablePred Padding := fun t =>
  List.decidableBAll (fun c => isBlank c = true ∧ c ≠ '\n') t

/-- The key is no white space and no colon, and the replacement has no line feed. -/
def Writable (rule : Char × String) : Prop :=
  isBlank rule.1 = false ∧ rule.1 ≠ ':' ∧ '\n' ∉ rule.2.toList

instance : DecidablePred Writable := fun rule =>
  inferInstanceAs (Decidable (isBlank rule.1 = false ∧ rule.1 ≠ ':' ∧ '\n' ∉ rule.2.toList))

/-- The lines are the rules in their order, each with white space around its key and around its
replacement, and lines of white space before, between and behind them. -/
inductive Lays : List (Char × String) → List (List Char) → Prop
  | nil : Lays [] []
  | blank {pad : List Char} {rules : List (Char × String)} {ls : List (List Char)}
    (hpad : Padding pad) (hls : Lays rules ls) : Lays rules (pad :: ls)
  | rule {lead gap ahead behind : List Char} {key : Char} {replacement : String}
    {rules : List (Char × String)} {ls : List (List Char)} (hlead : Padding lead)
    (hgap : Padding gap) (hahead : Padding ahead) (hbehind : Padding behind)
    (hls : Lays rules ls) :
    Lays ((key, replacement) :: rules)
      ((lead ++ key :: gap ++ ':' :: (ahead ++ replacement.toList ++ behind)) :: ls)

lemma Padding.isBlank {t : List Char} (h : Padding t) : ∀ c ∈ t, isBlank c = true :=
  fun c hc => (h c hc).1

lemma Padding.not_mem {t : List Char} (h : Padding t) {c : Char}
    (hc : Text.isBlank c = false ∨ c = '\n') : c ∉ t := by
  intro hmem
  obtain ⟨hblank, hne⟩ := h c hmem
  obtain hc | hc := hc
  · simp [hc] at hblank
  · exact hne hc

lemma isRule_laid {lead gap ahead behind : List Char} {replacement : String}
    (hlead : Padding lead) (hgap : Padding gap) (hahead : Padding ahead) (hbehind : Padding behind)
    (h : Writable (key, replacement)) :
    IsRule (lead ++ key :: gap ++ ':' :: (ahead ++ replacement.toList ++ behind)) key
        (ahead ++ replacement.toList ++ behind) ∧
      Word.ofChars (ahead ++ replacement.toList ++ behind) = .ofText replacement := by
  obtain ⟨hkey, hcolon, -⟩ := h
  refine ⟨⟨lead ++ key :: gap, rfl, ?_, trim_single hlead.isBlank hkey hgap.isBlank⟩, ?_⟩
  · have hlead' := hlead.not_mem (c := ':') (.inl (by decide))
    have hgap' := hgap.not_mem (c := ':') (.inl (by decide))
    simp [hlead', hgap', Ne.symm hcolon]
  · rw [Word.ofChars_append, Word.ofChars_append, Word.ofChars_eq_nil hahead.isBlank,
      Word.ofChars_eq_nil hbehind.isBlank, List.nil_append, List.append_nil]
    rfl

lemma not_mem_laid {lead gap ahead behind : List Char} {replacement : String}
    (hlead : Padding lead) (hgap : Padding gap) (hahead : Padding ahead) (hbehind : Padding behind)
    (h : Writable (key, replacement)) :
    '\n' ∉ lead ++ key :: gap ++ ':' :: (ahead ++ replacement.toList ++ behind) := by
  have hkey : '\n' ≠ key := by
    intro heq
    have hblank : isBlank key = false := h.1
    rw [← heq] at hblank
    exact absurd hblank (by decide)
  simp [hlead.not_mem (.inr rfl), hgap.not_mem (.inr rfl), hahead.not_mem (.inr rfl),
    hbehind.not_mem (.inr rfl), hkey, h.2.2]

/-- A carriage return at the end of a line belongs to the white space behind its replacement. -/
lemma IsRule.withoutReturn (h : IsRule line key replacement) :
    ∃ replacement', IsRule (withoutReturn line) key replacement' ∧
      Word.ofChars replacement' = Word.ofChars replacement := by
  rw [Text.withoutReturn]
  split
  case isFalse => exact ⟨replacement, h, rfl⟩
  case isTrue hlast =>
    obtain ⟨before, rfl, hfirst, hkey⟩ := h
    rcases List.eq_nil_or_concat' replacement with rfl | ⟨init, last, rfl⟩
    · simp at hlast
    · have hreturn : last = '\r' := by simpa [List.getLast?_cons] using hlast
      refine ⟨init, ⟨before, ?_, hfirst, hkey⟩, ?_⟩
      · rw [← List.cons_append, ← List.append_assoc, List.dropLast_concat]
      · have hnothing : Word.ofChars ['\r'] = [] := by decide
        rw [Word.ofChars_append, hreturn, hnothing, List.append_nil]

lemma trim_withoutReturn (h : trim line = []) : trim (withoutReturn line) = [] := by
  rw [trim_eq_nil_iff] at h ⊢
  intro c hc
  rw [withoutReturn] at hc
  split at hc
  · exact h c (List.dropLast_subset _ hc)
  · exact h c hc

/-- Laid out lines, put together and taken apart again, write the rules. -/
lemma Lays.writes (h : Lays rules ls) (hrules : ∀ r ∈ rules, Writable r) :
    Writes (lines (['\n'].intercalate ls)) (rules.map spelled) := by
  induction h with
  | nil => exact .nil
  | @blank pad rules ls hpad hls ih =>
    have hempty : trim pad = [] := trim_eq_nil_iff.mpr hpad.isBlank
    obtain ⟨first, hlines, hfirst⟩ := lines_intercalate_cons (hpad.not_mem (.inr rfl)) ls
    rw [hlines]
    obtain ⟨rfl, -⟩ | rfl | rfl := hfirst
    · exact ih hrules
    · exact .empty hempty (ih hrules)
    · exact .empty (trim_withoutReturn hempty) (ih hrules)
  | @rule lead gap ahead behind key replacement rules ls hlead hgap hahead hbehind hls ih =>
    rw [List.forall_mem_cons] at hrules
    obtain ⟨hrule, hword⟩ := isRule_laid hlead hgap hahead hbehind hrules.1
    obtain ⟨first, hlines, hfirst⟩ :=
      lines_intercalate_cons (not_mem_laid hlead hgap hahead hbehind hrules.1) ls
    rw [hlines, List.map_cons, spelled, ← hword]
    obtain ⟨-, hnil⟩ | rfl | rfl := hfirst
    · simp at hnil
    · exact .rule hrule (ih hrules.2)
    · obtain ⟨replacement', hrule', hword'⟩ := hrule.withoutReturn
      rw [← hword']
      exact .rule hrule' (ih hrules.2)

/-! ## The two ways side by side -/

/-- **The order of rules means nothing, unless a key comes twice.**  Rules with different keys lead
to the same productions whether they are put in or read from lines, in whatever orders, and so to
the same derivations.  If a key comes twice, the last rule put in stays, and a text is refused at
the first line that has the key of an earlier one. -/
theorem ofText_agrees_ofRules (rules : List (Char × String)) (hrules : ∀ r ∈ rules, Writable r) :
    ((rules.map Prod.fst).Nodup → ∀ written listed ls text, written.Perm rules →
      listed.Perm rules → Lays written ls → text.toList = ['\n'].intercalate ls →
        ∃ p, ofText text = .ok p ∧ p.rules.Perm (ofRules listed).rules ∧
          (∀ s, p.get? s = (ofRules listed).get? s) ∧
          ∀ start n limits, p.derive start n limits = (ofRules listed).derive start n limits) ∧
    (¬(rules.map Prod.fst).Nodup →
      ∀ ls text, Lays rules ls → text.toList = ['\n'].intercalate ls →
        ∃ before line behind key, lines text.toList = before ++ line :: behind ∧
          KeysDiffer before ∧ HasKey line key ∧ (∃ other ∈ before, HasKey other key) ∧
          ofText text = .error (.invalidRule (before.length + 1) (.repeated (.ofChar key)))) ∧
    (∀ before key replacement behind, rules = before ++ (key, replacement) :: behind →
      key ∉ behind.map Prod.fst →
        (ofRules rules).get? (.ofChar key) = some (.ofText replacement)) ∧
    ∀ s, (∀ r ∈ rules, .ofChar r.1 ≠ s) → (ofRules rules).get? s = none := by
  refine ⟨?_, ?_, ?_, ?_⟩
  · intro hdiffer written listed ls text hwritten hlisted hlays htext
    have hwrites := hlays.writes fun r hr => hrules r (hwritten.subset hr)
    have hnodup : ∀ order : List (Char × String), order.Perm rules →
        ((order.map spelled).map Prod.fst).Nodup :=
      fun order h => (nodup_spelled_iff order).mpr ((h.map _).nodup_iff.mpr hdiffer)
    have hperm : (empty.insertAll (written.map spelled)).rules.Perm (ofRules listed).rules := by
      rw [ofRules_eq]
      exact (insertAll_rules_perm (hnodup _ hwritten)).trans
        (((hwritten.trans hlisted.symm).map _).trans
          (insertAll_rules_perm (hnodup _ hlisted)).symm)
    refine ⟨_, ?_, hperm, get?_eq_of_perm hperm, derive_congr (get?_eq_of_perm hperm)⟩
    rw [ofText, htext]
    exact addLines_of_accepted hwrites (hnodup _ hwritten)
  · intro hrepeats ls text hlays htext
    have hwrites := hlays.writes hrules
    rw [← htext] at hwrites
    obtain ⟨rules', hwrites', hdiffer⟩ | ⟨before, line, behind, fault, hls,
      ⟨rules', hbefore, hdiffer⟩, hfaulty⟩ := accepted_or_faulty (lines text.toList)
    · have hkeys := hwrites.nodup_iff.mpr (hwrites'.nodup_iff.mp hdiffer)
      exact absurd ((nodup_spelled_iff rules).mp hkeys) hrepeats
    · have hline : WellFormed line := hwrites.wellFormed line (by simp [hls])
      obtain ⟨key, hkey, hother, rfl⟩ := hfaulty.exists_key hline
      refine ⟨before, line, behind, key, hls, hbefore.nodup_iff.mp hdiffer, hkey, hother, ?_⟩
      rw [ofText, hls]
      exact addLines_of_faulty hbefore hdiffer hfaulty behind
  · rintro before key replacement behind rfl hlast
    rw [ofRules_eq, List.map_append, List.map_cons]
    apply get?_insertAll_append_cons
    rw [map_spelled_keys]
    exact fun hmem => hlast ((List.mem_map_of_injective Symbol.ofChar_injective).mp hmem)
  · intro s hnone
    rw [ofRules_eq, get?_insertAll_of_not_mem, get?_empty]
    rw [map_spelled_keys, List.map_map]
    intro hmem
    obtain ⟨r, hr, hkey⟩ := List.mem_map.mp hmem
    exact hnone r hr hkey

/-- The rules `F:F[+F]` and `X:FX`, put in, and written the other way round with white space. -/
theorem ofText_agrees_ofRules_padded :
    (∀ r ∈ [('F', "F[+F]"), ('X', "FX")], Writable r) ∧
      ([('F', "F[+F]"), ('X', "FX")].map Prod.fst).Nodup ∧
      ∃ p, ofText " X :FX\r\n\nF:F[+F]" = .ok p ∧
        ∀ s, p.get? s = (ofRules [('F', "F[+F]"), ('X', "FX")]).get? s := by
  have hwritable : ∀ r ∈ [('F', "F[+F]"), ('X', "FX")], Writable r := by decide
  have hlays : Lays [('X', "FX"), ('F', "F[+F]")]
      [[' '] ++ 'X' :: [' '] ++ ':' :: ([] ++ "FX".toList ++ ['\r']), [],
        [] ++ 'F' :: [] ++ ':' :: ([] ++ "F[+F]".toList ++ [])] :=
    .rule (by decide) (by decide) (by decide) (by decide)
      (.blank (by decide) (.rule (by decide) (by decide) (by decide) (by decide) .nil))
  obtain ⟨p, hp, -, hget, -⟩ := (ofText_agrees_ofRules _ hwritable).1 (by decide) _
    [('F', "F[+F]"), ('X', "FX")] _ " X :FX\r\n\nF:F[+F]" (List.Perm.swap _ _ _) (List.Perm.refl _)
    hlays (by decide)
  exact ⟨hwritable, by decide, p, hp, hget⟩

end Arbor.Productions
