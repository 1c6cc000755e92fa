import Arbor.Lindenmayer.Derivation
import Mathlib.Data.List.Nodup
import Mathlib.Data.List.Perm.Lattice

/-!
# Rules of a grammar

Productions are a finite map: what a symbol is replaced by is the one rule with that symbol
(`get?_eq_some_iff`).  The order of the rules means nothing, neither to `get?` (`get?_eq_of_perm`)
nor to a derivation (`derive_congr`).

Rules that are put in one after the other leave the last one of each symbol.  If no symbol has two,
they are all there (`insertAll_rules_perm`), in whatever order they came.
-/

namespace Arbor

/-! ## Symbols and the characters that write them -/

lemma Symbol.toChar_ofChar (c : Char) : (Symbol.ofChar c).toChar = c := by
  unfold Symbol.ofChar
  split <;> rfl

lemma Symbol.ofChar_injective : Function.Injective Symbol.ofChar :=
  Function.LeftInverse.injective Symbol.toChar_ofChar

namespace Word

lemma ofChars_append (t u : List Char) : ofChars (t ++ u) = ofChars t ++ ofChars u := by
  rw [ofChars, ofChars, ofChars, List.filter_append, List.map_append]

/-- White space writes nothing. -/
lemma ofChars_eq_nil {t : List Char} (h : ∀ c ∈ t, Text.isBlank c = true) : ofChars t = [] := by
  rw [ofChars, List.map_eq_nil_iff, List.filter_eq_nil_iff]
  intro c hc
  simp [h c hc]

lemma toChars_ofChars (t : List Char) :
    (ofChars t).toChars = t.filter fun c => !Text.isBlank c := by
  rw [ofChars, toChars, List.map_map, List.map_congr_left, List.map_id]
  intro c _
  exact Symbol.toChar_ofChar c

end Word

namespace Productions

variable {p q : Productions} {s t : Symbol} {w : Word}

/-! ## A finite map -/

lemma get?_eq_some_iff : p.get? s = some w ↔ (s, w) ∈ p.rules := by
  constructor
  · intro h
    obtain ⟨before, behind, hrules, -⟩ := List.lookup_eq_some_iff.mp h
    simp [hrules]
  · intro h
    obtain ⟨before, behind, hrules⟩ := List.append_of_mem h
    refine List.lookup_eq_some_iff.mpr ⟨before, behind, hrules, ?_⟩
    intro r hr
    -- An earlier rule of the same symbol would be a second one.
    have hnodup := p.nodup
    rw [hrules, List.map_append, List.nodup_append] at hnodup
    have hne := hnodup.2.2 r.1 (List.mem_map_of_mem hr) s (by simp)
    exact bne_iff_ne.mpr hne.symm

@[simp]
lemma get?_empty : empty.get? s = none := rfl

lemma mem_rules_insert {r : Symbol × Word} :
    r ∈ (p.insert s w).rules ↔ r = (s, w) ∨ r ∈ p.rules ∧ r.1 ≠ s := by
  simp [insert]

@[simp]
lemma get?_insert : (p.insert s w).get? t = if t = s then some w else p.get? t := by
  ext v
  rw [get?_eq_some_iff, mem_rules_insert]
  by_cases h : t = s
  · simp [h, eq_comm]
  · simp [h, get?_eq_some_iff]

/-- Productions with the same rules replace the same symbols by the same words. -/
lemma get?_eq_of_perm (h : p.rules.Perm q.rules) (s : Symbol) : p.get? s = q.get? s := by
  ext w
  rw [get?_eq_some_iff, get?_eq_some_iff, h.mem_iff]

/-! ## Rules put in one after the other -/

/-- The productions with rules put in, a later one in the place of an earlier one. -/
def insertAll (p : Productions) (rules : List (Symbol × Word)) : Productions :=
  rules.foldl (fun p r => p.insert r.1 r.2) p

lemma get?_insertAll_of_not_mem {rules : List (Symbol × Word)} (h : s ∉ rules.map Prod.fst) :
    (p.insertAll rules).get? s = p.get? s := by
  induction rules generalizing p with
  | nil => rfl
  | cons r rules ih =>
    rw [List.map_cons, List.mem_cons, not_or] at h
    rw [insertAll, List.foldl_cons, ← insertAll, ih h.2, get?_insert, if_neg h.1]

/-- The last rule of a symbol stays. -/
lemma get?_insertAll_append_cons (before : List (Symbol × Word)) {behind : List (Symbol × Word)}
    (h : s ∉ behind.map Prod.fst) :
    (p.insertAll (before ++ (s, w) :: behind)).get? s = some w := by
  rw [insertAll, List.foldl_append, List.foldl_cons, ← insertAll, ← insertAll,
    get?_insertAll_of_not_mem h, get?_insert, if_pos rfl]

lemma get?_insertAll_of_mem {rules : List (Symbol × Word)} (h : (rules.map Prod.fst).Nodup)
    (hmem : (s, w) ∈ rules) : (p.insertAll rules).get? s = some w := by
  obtain ⟨before, behind, rfl⟩ := List.append_of_mem hmem
  rw [List.map_append, List.map_cons, List.nodup_append] at h
  exact get?_insertAll_append_cons before (List.nodup_cons.mp h.2.1).1

/-- Rules of which no two have the same symbol are all there. -/
lemma insertAll_rules_perm {rules : List (Symbol × Word)} (h : (rules.map Prod.fst).Nodup) :
    (empty.insertAll rules).rules.Perm rules := by
  rw [List.perm_ext_iff_of_nodup (List.Nodup.of_map _ (nodup _)) (List.Nodup.of_map _ h)]
  rintro ⟨s, w⟩
  rw [← get?_eq_some_iff]
  constructor
  · intro hget
    by_cases hs : s ∈ rules.map Prod.fst
    · obtain ⟨⟨s, v⟩, hmem, rfl⟩ := List.mem_map.mp hs
      rw [get?_insertAll_of_mem h hmem] at hget
      cases hget
      exact hmem
    · rw [get?_insertAll_of_not_mem hs] at hget
      cases hget
  · intro hmem
    exact get?_insertAll_of_mem h hmem

/-! ## Derivations see the rules only -/

/-- Productions that replace the same symbols by the same words derive the same words, and fail
alike. -/
lemma derive_congr (h : ∀ s, p.get? s = q.get? s) (start : Word) (n : Nat) (limits : Limits) :
    p.derive start n limits = q.derive start n limits := by
  have himage : p.image = q.image := by
    funext s
    rw [image, image, h]
  have hpass : ∀ limit i w, p.pass limit i w = q.pass limit i w := by
    intro limit i w
    have hlength : p.nextLength w = q.nextLength w := by simp only [nextLength, h]
    have hnext : p.nextWord w = q.nextWord w := by rw [nextWord, nextWord, himage]
    rw [pass, pass, hlength, hnext]
  have hfrom : ∀ limit n i w, p.deriveFrom limit i n w = q.deriveFrom limit i n w := by
    intro limit n
    induction n with
    | zero => intro i w; rfl
    | succ n ih =>
      intro i w
      rw [deriveFrom, deriveFrom, hpass]
      cases q.pass limit i w with
      | ok next => exact ih (i + 1) next
      | error e => rfl
  rw [derive, derive, hfrom]

end Productions

end Arbor
