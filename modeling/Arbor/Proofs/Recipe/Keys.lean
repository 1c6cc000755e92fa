import Arbor.Proofs.Text.Lines
import Arbor.Proofs.Turtle.Admissible
import Arbor.Recipe.Document
import Mathlib

/-!
# Keys of a catalog

Keys are compared in two ways: a catalog is built by keys in upper case, and searched by keys that
agree in lower case.  Both are agreement up to the case of ASCII letters (`sameKey_iff`), so of the
presets of a catalog at most one has a given key (`eq_of_sameKey`).

White space around a key is dropped from what is searched for and from nothing else.  So a preset
whose key has none is found by its key, in whatever case and with whatever space around, and one
whose key has some is found by nothing (`find_of_own_key`).
-/

namespace Arbor

/-! ## White space and the case of letters -/

namespace Text

lemma isBlank_of_isAlpha {c : Char} (h : c.isAlpha = true) : isBlank c = false := by
  have hrange : 65 ≤ c.toNat ∧ c.toNat ≤ 122 := by
    simp [Char.isAlpha, Char.isUpper, Char.isLower, UInt32.le_iff_toNat_le] at h
    omega
  simp [isBlank, blankRuns]
  omega

lemma isBlank_toUpper (c : Char) : isBlank c.toUpper = isBlank c := by
  by_cases h : c.isAlpha = true
  · rw [isBlank_of_isAlpha h, isBlank_of_isAlpha (by rwa [Char.isAlpha_toUpper_eq_isAlpha])]
  · rw [Char.toUpper_eq_of_not_isLower]
    simp [Char.isAlpha] at h
    simp [h]

lemma foldKey_trim (t : List Char) : foldKey (trim t) = trim (foldKey t) :=
  (trim_map isBlank_toUpper t).symm

end Text

/-! ## Agreement of keys -/

/-- Keys agree in lower case exactly if they agree in upper case. -/
lemma sameKey_iff {a b : List Char} : sameKey a b = true ↔ foldKey a = foldKey b := by
  rw [sameKey, beq_iff_eq]
  constructor
  · intro h
    have := congrArg (List.map Char.toUpper) h
    simpa [Function.comp_def, foldKey] using this
  · intro h
    have := congrArg (List.map Char.toLower) h
    simpa [Function.comp_def, foldKey] using this

lemma length_eq_of_sameKey {a b : List Char} (h : sameKey a b = true) : a.length = b.length := by
  have := congrArg List.length (sameKey_iff.mp h)
  simpa [foldKey] using this

/-- A key that agrees with its trimmed self has no white space around it. -/
lemma trim_eq_of_sameKey {a : List Char} (h : sameKey (Text.trim a) a = true) : Text.trim a = a :=
  (Text.trim_infix a).eq_of_length (length_eq_of_sameKey h)

/-! ## Accepted presets -/

namespace Catalog

lemma checkFrom_nil (seen : List (List Char)) : checkFrom seen [] = .ok () := rfl

lemma checkFrom_cons (seen : List (List Char)) (p : Preset) (rest : List Preset) :
    checkFrom seen (p :: rest) =
      match p.check with
      | .error e => .error e
      | .ok () =>
        if foldKey p.key.toList ∈ seen then .error (.invalidField .key (.repeatedKey p.key))
        else checkFrom (foldKey p.key.toList :: seen) rest := rfl

/-- Presets are accepted if each can be used and no key is that of an earlier one. -/
lemma checkFrom_eq_ok_iff (presets : List Preset) (seen : List (List Char)) :
    checkFrom seen presets = .ok () ↔ (∀ p ∈ presets, p.check = .ok ()) ∧
      (presets.map fun p => foldKey p.key.toList).Nodup ∧
      ∀ p ∈ presets, foldKey p.key.toList ∉ seen := by
  induction presets generalizing seen with
  | nil => simp [checkFrom_nil]
  | cons p presets ih =>
    cases hcheck : p.check with
    | error e => simp [checkFrom_cons, hcheck]
    | ok _ =>
      by_cases hseen : foldKey p.key.toList ∈ seen
      · simp [checkFrom_cons, hcheck, hseen]
      · have hrest := ih (foldKey p.key.toList :: seen)
        simp only [checkFrom_cons, hcheck, if_neg hseen, hrest]
        constructor
        · rintro ⟨hok, hnodup, hnew⟩
          refine ⟨List.forall_mem_cons.mpr ⟨hcheck, hok⟩, List.nodup_cons.mpr ⟨fun hmem => ?_,
            hnodup⟩, List.forall_mem_cons.mpr ⟨hseen, fun q hq hold =>
              hnew q hq (List.mem_cons_of_mem _ hold)⟩⟩
          obtain ⟨q, hq, hkey⟩ := List.mem_map.mp hmem
          exact hnew q hq (hkey ▸ List.mem_cons_self)
        · rintro ⟨hok, hnodup, hnew⟩
          obtain ⟨hfirst, hnodup⟩ := List.nodup_cons.mp hnodup
          refine ⟨fun q hq => hok q (List.mem_cons_of_mem _ hq), hnodup, fun q hq hmem => ?_⟩
          rcases List.mem_cons.mp hmem with hkey | hold
          · exact hfirst (List.mem_map.mpr ⟨q, hq, hkey⟩)
          · exact hnew q (List.mem_cons_of_mem _ hq) hold

lemma ofList_eq_ok_iff {presets : List Preset} {c : Catalog} : ofList presets = .ok c ↔
    c.presets = presets ∧ (∀ p ∈ presets, p.check = .ok ()) ∧
      (presets.map fun p => foldKey p.key.toList).Nodup := by
  rw [ofList, check_bind_eq_ok_iff, checkFrom_eq_ok_iff]
  constructor
  · rintro ⟨⟨hok, hnodup, -⟩, hc⟩
    cases hc
    exact ⟨rfl, hok, hnodup⟩
  · rintro ⟨rfl, hok, hnodup⟩
    exact ⟨⟨hok, hnodup, by simp⟩, rfl⟩

/-- The catalog was made of a list of presets, given as one or read from a document. -/
def Accepted (c : Catalog) : Prop :=
  (∃ presets, ofList presets = .ok c) ∨ ∃ text, ofDocument text = .ok c

lemma Accepted.ofList_eq {c : Catalog} (h : c.Accepted) : ofList c.presets = .ok c := by
  have hlist : ∃ presets, ofList presets = .ok c := by
    rcases h with h | ⟨text, h⟩
    · exact h
    · rw [ofDocument] at h
      split at h
      · cases h
      · exact ⟨_, h⟩
  obtain ⟨presets, hpresets⟩ := hlist
  obtain ⟨rfl, -, -⟩ := ofList_eq_ok_iff.mp hpresets
  exact hpresets

lemma Accepted.check {c : Catalog} (h : c.Accepted) {p : Preset} (hp : p ∈ c.presets) :
    p.check = .ok () :=
  (ofList_eq_ok_iff.mp h.ofList_eq).2.1 p hp

lemma Accepted.nodup {c : Catalog} (h : c.Accepted) :
    (c.presets.map fun p => foldKey p.key.toList).Nodup :=
  (ofList_eq_ok_iff.mp h.ofList_eq).2.2

variable {c : Catalog} {p : Preset}

/-- The keys of an accepted catalog tell its presets apart. -/
lemma Accepted.eq_of_sameKey (h : c.Accepted) {q : Preset} (hp : p ∈ c.presets)
    (hq : q ∈ c.presets) {k : List Char} (hpk : sameKey p.key.toList k = true)
    (hqk : sameKey q.key.toList k = true) : p = q :=
  List.inj_on_of_nodup_map h.nodup hp hq
    ((sameKey_iff.mp hpk).trans (sameKey_iff.mp hqk).symm)

/-- A preset of an accepted catalog is found by the texts that are its key when trimmed, up to
case, and by no others. -/
lemma Accepted.find_eq_ok_iff (h : c.Accepted) (hp : p ∈ c.presets) (k : String) :
    c.find k = .ok p ↔ sameKey p.key.toList (Text.trim k.toList) = true := by
  rw [find]
  constructor
  · intro hfind
    split at hfind
    · rename_i q hq
      cases hfind
      simpa using List.find?_some hq
    · cases hfind
  · intro hkey
    split
    · rename_i q hq
      have hqkey : sameKey q.key.toList (Text.trim k.toList) = true := by
        simpa using List.find?_some hq
      rw [h.eq_of_sameKey hp (List.mem_of_find?_eq_some hq) hkey hqkey]
    · rename_i hnone
      exact absurd hkey (List.find?_eq_none.mp hnone p hp)

/-- **Own keys.**  Take a preset of a catalog that was accepted.  If its key has no white space
around it, every text that agrees with the key up to the case of ASCII letters and the white space
around both finds it.  If its key has white space around it, no text at all finds it. -/
theorem find_of_own_key (h : c.Accepted) (hp : p ∈ c.presets) :
    (Text.trim p.key.toList = p.key.toList → ∀ k : String,
      sameKey (Text.trim k.toList) (Text.trim p.key.toList) = true → c.find k = .ok p) ∧
    (Text.trim p.key.toList ≠ p.key.toList → ∀ k : String, c.find k ≠ .ok p) := by
  refine ⟨fun htrim k hk => ?_, fun htrim k hfind => htrim ?_⟩
  · rw [htrim] at hk
    exact (h.find_eq_ok_iff hp k).mpr (sameKey_iff.mpr (sameKey_iff.mp hk).symm)
  · -- The key agrees with a trimmed text, so it agrees with itself trimmed.
    have hkey := sameKey_iff.mp ((h.find_eq_ok_iff hp k).mp hfind)
    refine trim_eq_of_sameKey (sameKey_iff.mpr ?_)
    rw [Text.foldKey_trim, hkey, ← Text.foldKey_trim, Text.trim_trim]

/-- A catalog with a plain key and one that has spaces around it. -/
def spacedCatalog : Catalog where
  presets := [.shaped "OAK" "Oak" "F" "F:FF" 2 25 0.9 0.9,
    .shaped " elm " "Elm" "F" "F:F[+F]" 2 20 0.9 0.9]

/-- The plain key is found in any case and with any white space around, the other one by nothing. -/
theorem find_of_own_key_spaced : spacedCatalog.Accepted ∧
    ((∃ p ∈ spacedCatalog.presets, p.name = "Oak" ∧
      spacedCatalog.find "\t oaK\n" = .ok p) ∧
    ∃ p ∈ spacedCatalog.presets, p.name = "Elm" ∧ ∀ k, spacedCatalog.find k ≠ .ok p) := by
  have haccepted : spacedCatalog.Accepted := .inl ⟨spacedCatalog.presets, by decide +kernel⟩
  refine ⟨haccepted, ⟨_, List.mem_cons_self, rfl, ?_⟩, _, .tail _ List.mem_cons_self, rfl, ?_⟩
  · exact (find_of_own_key haccepted List.mem_cons_self).1 (by decide +kernel) _ (by decide +kernel)
  · exact (find_of_own_key haccepted (.tail _ List.mem_cons_self)).2 (by decide +kernel)

/-- Not every preset of an accepted catalog is found by its own key. -/
theorem exists_own_key_not_found : ∃ (c : Catalog) (p : Preset), c.Accepted ∧ p ∈ c.presets ∧
    sameKey (Text.trim p.key.toList) (Text.trim p.key.toList) = true ∧
    c.find p.key = .error (.unknownPreset "elm") := by
  refine ⟨spacedCatalog, _, .inl ⟨spacedCatalog.presets, by decide +kernel⟩,
    .tail _ List.mem_cons_self, by decide +kernel, by decide +kernel⟩

end Catalog

end Arbor
