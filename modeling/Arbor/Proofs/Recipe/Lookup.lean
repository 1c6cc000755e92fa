import Arbor.Proofs.Recipe.Keys

/-!
# Catalogs and the order of their presets

A catalog is built in one walk over its presets, which stops at the first fault.  What the walk
remembers of the presets behind it are their folded keys; read as a fault of a preset against
earlier presets (`fault?`), a step depends on the presets alone (`checkFrom_cons_eq`).  From it
follow which lists are accepted and which failure the others give (`checkFrom_eq_error_iff`).

What is looked up is compared in another way than what is built.  As both comparisons tell the same
keys apart (`distinctKeys_iff`), at most one preset of a catalog has a wanted key, and the order of
the presets does not matter to what is found (`find_eq_of_perm`).
-/

namespace Arbor

/-- A preset has the key that is wanted: the same but for the case of ASCII letters and the white
space around what is wanted. -/
def Preset.hasKey (p : Preset) (wanted : String) : Bool :=
  sameKey p.key.toList (Text.trim wanted.toList)

namespace Catalog

/-- No two of the presets have the same key, up to the case of ASCII letters. -/
def DistinctKeys (presets : List Preset) : Prop :=
  presets.Pairwise fun p q => sameKey p.key.toList q.key.toList = false

/-- Each of the presets can be used, and no two have the same key. -/
def Usable (presets : List Preset) : Prop :=
  (∀ p ∈ presets, p.check = .ok ()) ∧ DistinctKeys presets

/-- Why a preset cannot follow earlier ones: it cannot be used, or else its key is taken. -/
def fault? (earlier : List Preset) (p : Preset) : Option Failure :=
  match p.check with
  | .error e => some e
  | .ok () =>
    if earlier.any fun q => sameKey q.key.toList p.key.toList then
      some (.invalidField .key (.repeatedKey p.key))
    else none

/-! ## Presets that are accepted -/

lemma distinctKeys_iff {presets : List Preset} :
    DistinctKeys presets ↔ (presets.map fun p => foldKey p.key.toList).Nodup := by
  rw [DistinctKeys, List.Nodup, List.pairwise_map]
  refine List.Pairwise.iff fun p q => ?_
  rw [← Bool.not_eq_true, sameKey_iff]

lemma DistinctKeys.perm {presets others : List Preset} (h : DistinctKeys presets)
    (hperm : others.Perm presets) : DistinctKeys others := by
  rw [distinctKeys_iff] at h ⊢
  exact (hperm.map _).nodup_iff.mpr h

lemma Usable.perm {presets others : List Preset} (h : Usable presets)
    (hperm : others.Perm presets) : Usable others :=
  ⟨fun p hp => h.1 p (hperm.subset hp), h.2.perm hperm⟩

lemma ofList_eq_ok_iff_usable {presets : List Preset} {c : Catalog} :
    ofList presets = .ok c ↔ c.presets = presets ∧ Usable presets := by
  rw [ofList_eq_ok_iff, Usable, distinctKeys_iff]

lemma exists_ofList_iff {presets : List Preset} :
    (∃ c, ofList presets = .ok c) ↔ Usable presets :=
  ⟨fun ⟨_, hc⟩ => (ofList_eq_ok_iff_usable.mp hc).2,
    fun h => ⟨⟨presets⟩, ofList_eq_ok_iff_usable.mpr ⟨rfl, h⟩⟩⟩

/-! ## The first fault -/

/-- What the walk remembers of the presets behind it. -/
def keysBehind (earlier : List Preset) : List (List Char) :=
  (earlier.map fun p => foldKey p.key.toList).reverse

lemma mem_keysBehind {earlier : List Preset} {p : Preset} :
    foldKey p.key.toList ∈ keysBehind earlier ↔
      (earlier.any fun q => sameKey q.key.toList p.key.toList) = true := by
  simp [keysBehind, sameKey_iff]

lemma keysBehind_concat (earlier : List Preset) (p : Preset) :
    keysBehind (earlier ++ [p]) = foldKey p.key.toList :: keysBehind earlier := by
  simp [keysBehind]

/-- One step of the walk: it stops at a fault, and else has one more preset behind it. -/
lemma checkFrom_cons_eq (earlier : List Preset) (p : Preset) (rest : List Preset) :
    checkFrom (keysBehind earlier) (p :: rest) =
      match fault? earlier p with
      | some e => .error e
      | none => checkFrom (keysBehind (earlier ++ [p])) rest := by
  rw [checkFrom_cons, fault?]
  cases p.check with
  | error e => rfl
  | ok _ =>
    by_cases hkey : foldKey p.key.toList ∈ keysBehind earlier
    · simp only [hkey, if_true, mem_keysBehind.mp hkey]
    · simp only [hkey, if_false, mt mem_keysBehind.mpr hkey, keysBehind_concat,
        Bool.false_eq_true]

/-- A walk fails with the fault of one preset, and has gone through all before it. -/
lemma checkFrom_eq_error_iff {presets : List Preset} (earlier : List Preset) {e : Failure} :
    checkFrom (keysBehind earlier) presets = .error e ↔
      ∃ before p rest, presets = before ++ p :: rest ∧
        checkFrom (keysBehind earlier) before = .ok () ∧ fault? (earlier ++ before) p = some e := by
  induction presets generalizing earlier with
  | nil => simp [checkFrom_nil]
  | cons q presets ih =>
    rw [checkFrom_cons_eq]
    cases hfault : fault? earlier q with
    | some f =>
      -- Nothing can be gone through from here on, so the fault is that of the first preset.
      constructor
      · intro h
        cases h
        exact ⟨[], q, presets, rfl, checkFrom_nil _, by simpa using hfault⟩
      · rintro ⟨before, p, rest, hsplit, hbefore, hp⟩
        cases before with
        | nil =>
          cases hsplit
          rw [List.append_nil, hfault] at hp
          cases hp
          rfl
        | cons r before =>
          cases hsplit
          simp [checkFrom_cons_eq, hfault] at hbefore
    | none =>
      refine (ih (earlier ++ [q])).trans ⟨?_, ?_⟩
      · rintro ⟨before, p, rest, rfl, hbefore, hp⟩
        refine ⟨q :: before, p, rest, rfl, ?_, by simpa using hp⟩
        rw [checkFrom_cons_eq, hfault]
        exact hbefore
      · rintro ⟨before, p, rest, hsplit, hbefore, hp⟩
        cases before with
        | nil =>
          cases hsplit
          rw [List.append_nil, hfault] at hp
          cases hp
        | cons r before =>
          cases hsplit
          rw [checkFrom_cons_eq, hfault] at hbefore
          exact ⟨before, p, rest, rfl, hbefore, by simpa using hp⟩

lemma ofList_eq_error_iff {presets : List Preset} {e : Failure} :
    ofList presets = .error e ↔ ∃ before p rest, presets = before ++ p :: rest ∧
      Usable before ∧ fault? before p = some e := by
  have hwalk : ofList presets = .error e ↔ checkFrom (keysBehind []) presets = .error e := by
    show ofList presets = .error e ↔ checkFrom [] presets = .error e
    rw [ofList]
    cases checkFrom [] presets <;> simp [bind, Except.bind, pure, Except.pure]
  rw [hwalk, checkFrom_eq_error_iff]
  have husable (before : List Preset) :
      checkFrom (keysBehind []) before = .ok () ↔ Usable before := by
    rw [checkFrom_eq_ok_iff, Usable, distinctKeys_iff]
    simp [keysBehind]
  simp only [husable, List.nil_append]

/-! ## What is found -/

lemma find_eq_error_iff {c : Catalog} {k : String} {e : Failure} :
    c.find k = .error e ↔ (∀ p ∈ c.presets, p.hasKey k = false) ∧
      e = .unknownPreset (String.ofList (Text.trim k.toList)) := by
  rw [find]
  cases hfind : c.presets.find? fun p => sameKey p.key.toList (Text.trim k.toList) with
  | some p =>
    have hkey : sameKey p.key.toList (Text.trim k.toList) = true := by
      simpa using List.find?_some hfind
    have hp := List.mem_of_find?_eq_some hfind
    simp only [reduceCtorEq, false_iff, not_and]
    exact fun hnone => absurd ((hnone p hp).symm.trans hkey) Bool.false_ne_true
  | none =>
    have hnone : ∀ p ∈ c.presets, p.hasKey k = false := fun p hp =>
      Bool.eq_false_iff.mpr (List.find?_eq_none.mp hfind p hp)
    simp only [Except.error.injEq]
    exact ⟨fun h => ⟨hnone, h.symm⟩, fun h => h.2.symm⟩

variable {c c' : Catalog}

lemma Accepted.find_eq_ok_iff_mem (h : c.Accepted) {k : String} {p : Preset} :
    c.find k = .ok p ↔ p ∈ c.presets ∧ p.hasKey k = true := by
  constructor
  · intro hfind
    have hp : p ∈ c.presets := by
      rw [find] at hfind
      split at hfind
      · rename_i q hq
        cases hfind
        exact List.mem_of_find?_eq_some hq
      · cases hfind
    exact ⟨hp, (h.find_eq_ok_iff hp k).mp hfind⟩
  · rintro ⟨hp, hkey⟩
    exact (h.find_eq_ok_iff hp k).mpr hkey

/-- At most one preset of an accepted catalog has a wanted key. -/
lemma Accepted.length_filter_le (h : c.Accepted) (k : String) :
    (c.presets.filter (·.hasKey k)).length ≤ 1 := by
  have hnodup : (c.presets.filter (·.hasKey k)).Nodup := (h.nodup.of_map _).filter _
  by_contra hlength
  obtain ⟨p, q, rest, hfilter⟩ : ∃ p q rest, c.presets.filter (·.hasKey k) = p :: q :: rest := by
    rcases hfilter : c.presets.filter (·.hasKey k) with _ | ⟨p, _ | ⟨q, rest⟩⟩
    · simp [hfilter] at hlength
    · simp [hfilter] at hlength
    · exact ⟨p, q, rest, hfilter⟩
  have hp : p ∈ c.presets.filter (·.hasKey k) := by simp [hfilter]
  have hq : q ∈ c.presets.filter (·.hasKey k) := by simp [hfilter]
  rw [List.mem_filter] at hp hq
  have hpq : p = q := h.eq_of_sameKey hp.1 hq.1 hp.2 hq.2
  rw [hfilter, hpq] at hnodup
  simp at hnodup

/-- The order of the presets does not matter to what is found. -/
lemma find_eq_of_perm (h : c.Accepted) (h' : c'.Accepted) (hperm : c'.presets.Perm c.presets)
    (k : String) : c'.find k = c.find k := by
  cases hfind : c.find k with
  | ok p =>
    obtain ⟨hp, hkey⟩ := h.find_eq_ok_iff_mem.mp hfind
    exact h'.find_eq_ok_iff_mem.mpr ⟨hperm.mem_iff.mpr hp, hkey⟩
  | error e =>
    obtain ⟨hnone, he⟩ := find_eq_error_iff.mp hfind
    exact find_eq_error_iff.mpr ⟨fun p hp => hnone p (hperm.mem_iff.mp hp), he⟩

/-- **Catalogs of presets.**  A list of presets makes a catalog exactly if each can be used and no
two have the same key, up to the case of ASCII letters.  Otherwise the failure is that of the first
preset that cannot follow those before it: its own fault, or else that its key is taken.

In a catalog made of a list, at most one preset has the key that is wanted, and it is the one that
is found.  The search fails exactly if there is none, and names what was wanted without the white
space around it.  Put in another order, the presets make a catalog too, and every search gives the
same. -/
theorem catalog_of_presets (presets : List Preset) :
    ((∃ c, ofList presets = .ok c) ↔ Usable presets) ∧
    (∀ e, ofList presets = .error e ↔ ∃ before p rest, presets = before ++ p :: rest ∧
      Usable before ∧ fault? before p = some e) ∧
    ∀ c, ofList presets = .ok c →
      c.presets = presets ∧ DistinctKeys presets ∧
      (∀ k, (presets.filter (·.hasKey k)).length ≤ 1 ∧
        (∀ p, c.find k = .ok p ↔ p ∈ presets ∧ p.hasKey k = true) ∧
        ∀ e, c.find k = .error e ↔ (∀ p ∈ presets, p.hasKey k = false) ∧
          e = .unknownPreset (String.ofList (Text.trim k.toList))) ∧
      ∀ others, others.Perm presets →
        ∃ c', ofList others = .ok c' ∧ c'.presets = others ∧ ∀ k, c'.find k = c.find k := by
  refine ⟨exists_ofList_iff, fun e => ofList_eq_error_iff, fun c hc => ?_⟩
  have haccepted : c.Accepted := .inl ⟨presets, hc⟩
  obtain ⟨rfl, husable⟩ := ofList_eq_ok_iff_usable.mp hc
  refine ⟨rfl, husable.2, fun k => ⟨haccepted.length_filter_le k,
    fun p => haccepted.find_eq_ok_iff_mem, fun e => find_eq_error_iff⟩, fun others hperm => ?_⟩
  have hothers : ofList others = .ok ⟨others⟩ :=
    ofList_eq_ok_iff_usable.mpr ⟨rfl, husable.perm hperm⟩
  exact ⟨⟨others⟩, hothers, rfl, find_eq_of_perm haccepted (.inl ⟨others, hothers⟩) hperm⟩

/-- Two presets make a catalog, and the other way round one that finds the same.  With the first
repeated after them they make none: its key is taken. -/
theorem catalog_of_presets_spaced :
    ofList spacedCatalog.presets = .ok spacedCatalog ∧
    (∃ c, ofList spacedCatalog.presets.reverse = .ok c ∧
      c.presets = spacedCatalog.presets.reverse ∧
      ∀ k, c.find k = spacedCatalog.find k) ∧
    ofList (spacedCatalog.presets ++ [.shaped "oak" "Oak" "F" "F:FF" 2 25 0.9 0.9]) =
      .error (.invalidField .key (.repeatedKey "oak")) := by
  have hspaced : ofList spacedCatalog.presets = .ok spacedCatalog := by decide +kernel
  refine ⟨hspaced, ?_, ?_⟩
  · exact ((catalog_of_presets spacedCatalog.presets).2.2 _ hspaced).2.2.2 _
      (List.reverse_perm _)
  · refine ((catalog_of_presets _).2.1 _).mpr ⟨spacedCatalog.presets, _, [], rfl, ?_,
      by decide +kernel⟩
    exact (catalog_of_presets spacedCatalog.presets).1.mp ⟨_, hspaced⟩

end Catalog

end Arbor
