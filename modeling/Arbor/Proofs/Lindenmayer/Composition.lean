import Arbor.Proofs.Lindenmayer.Generations

/-!
# Derivations put together

Passes work symbol by symbol and one after the other.  So the generations of a word made of two
words are made of their generations (`generation_append`), and the generations behind the `m`-th
are those of the `m`-th (`generation_add`).

Derivations are limited at every pass, and not only at the end.  A derivation of `m + n` passes
goes through the result of the first `m`, and overflows where one of its two parts does
(`derive_add_eq_ok_iff`, `derive_add_of_overflow`, `derive_add_of_error`).
-/

namespace Arbor.Productions

variable (p : Productions) {limits : Limits}

/-! ## Generations -/

lemma generation_add (start : Word) (m n : Nat) :
    p.generation start (m + n) = p.generation (p.generation start m) n := by
  induction n with
  | zero => rfl
  | succ n ih => rw [← Nat.add_assoc, generation_succ, generation_succ, ih]

lemma generation_append (a b : Word) (n : Nat) :
    p.generation (a ++ b) n = p.generation a n ++ p.generation b n := by
  induction n with
  | zero => rfl
  | succ n ih => rw [generation_succ, generation_succ, generation_succ, ih, nextWord_append]

/-- The generations up to the `m + n`-th are those up to the `m`-th and those that follow it. -/
lemma forall_le_add_iff (start : Word) (m n limit : Nat) :
    (∀ k ≤ m + n, (p.generation start k).length ≤ limit) ↔
      (∀ k ≤ m, (p.generation start k).length ≤ limit) ∧
        ∀ k ≤ n, (p.generation (p.generation start m) k).length ≤ limit := by
  constructor
  · intro h
    refine ⟨fun k hk => h k (by omega), ?_⟩
    intro k hk
    rw [← generation_add]
    exact h (m + k) (by omega)
  · rintro ⟨hfirst, hlater⟩ k hk
    rcases Nat.le_total k m with hkm | hmk
    · exact hfirst k hkm
    · obtain ⟨j, rfl⟩ := Nat.exists_eq_add_of_le hmk
      rw [generation_add]
      exact hlater j (by omega)

/-! ## One derivation after another -/

variable {start : Word} {m n : Nat}

lemma derive_add_eq_ok_iff (hmn : m + n ≤ limits.maxPasses) (w : Word) :
    p.derive start (m + n) limits = .ok w ↔
      ∃ t, p.derive start m limits = .ok t ∧ p.derive t n limits = .ok w := by
  have hm : m ≤ limits.maxPasses := by omega
  have hn : n ≤ limits.maxPasses := by omega
  simp only [derive_eq_ok_iff, forall_le_add_iff, hmn, hm, hn, true_and]
  constructor
  · rintro ⟨⟨hfirst, hlater⟩, rfl⟩
    exact ⟨_, ⟨hfirst, rfl⟩, hlater, generation_add p start m n⟩
  · rintro ⟨t, ⟨hfirst, rfl⟩, hlater, rfl⟩
    exact ⟨⟨hfirst, hlater⟩, (generation_add p start m n).symm⟩

/-- A later part overflows at the pass it reports, counted from where it began. -/
lemma derive_add_of_overflow (hmn : m + n ≤ limits.maxPasses) {t : Word} {limit required j : Nat}
    (ht : p.derive start m limits = .ok t)
    (hj : p.derive t n limits = .error (.overflow limit required j)) :
    p.derive start (m + n) limits = .error (.overflow limit required (m + j)) := by
  obtain ⟨-, hfirst, rfl⟩ := (derive_eq_ok_iff ..).mp ht
  obtain ⟨-, hjn, hbelow, habove, rfl, rfl⟩ := (derive_eq_overflow_iff ..).mp hj
  rw [← generation_add] at habove ⊢
  refine derive_of_lt p start hmn (by omega) ?_ habove
  intro k hk
  rcases Nat.lt_or_ge k m with hkm | hmk
  · exact hfirst k hkm.le
  · obtain ⟨i, rfl⟩ := Nat.exists_eq_add_of_le hmk
    rw [generation_add]
    exact hbelow i (by omega)

/-- More passes do not mend a derivation that fails. -/
lemma derive_add_of_error (hmn : m + n ≤ limits.maxPasses) {e : Failure}
    (he : p.derive start m limits = .error e) : p.derive start (m + n) limits = .error e := by
  obtain ⟨hm, -⟩ | ⟨-, -, hderive⟩ | ⟨-, k, hk, hbelow, habove, hderive⟩ :=
    derive_cases p start m limits
  · omega
  · rw [hderive] at he
    cases he
  · rw [hderive] at he
    cases he
    exact derive_of_lt p start hmn (by omega) hbelow habove

/-! ## Parts of a word, and higher limits -/

lemma derive_append_eq_ok {a b w : Word} (h : p.derive (a ++ b) n limits = .ok w) :
    ∃ u v, p.derive a n limits = .ok u ∧ p.derive b n limits = .ok v ∧ w = u ++ v := by
  obtain ⟨hn, hall, rfl⟩ := (derive_eq_ok_iff ..).mp h
  have hlength : ∀ k ≤ n, (p.generation a k).length + (p.generation b k).length ≤
      limits.longest := by
    intro k hk
    rw [← List.length_append, ← generation_append]
    exact hall k hk
  refine ⟨_, _, derive_of_le p a hn fun k hk => ?_, derive_of_le p b hn fun k hk => ?_,
    generation_append p a b n⟩
  · exact (Nat.le_add_right _ _).trans (hlength k hk)
  · exact (Nat.le_add_left _ _).trans (hlength k hk)

lemma derive_of_maxSymbols_le {limits' : Limits} (hpasses : limits'.maxPasses = limits.maxPasses)
    (hsymbols : limits.maxSymbols ≤ limits'.maxSymbols) {w : Word}
    (h : p.derive start n limits = .ok w) : p.derive start n limits' = .ok w := by
  obtain ⟨hn, hall, rfl⟩ := (derive_eq_ok_iff ..).mp h
  have hlongest : limits.longest ≤ limits'.longest := min_le_min_right _ hsymbols
  exact derive_of_le p start (hpasses ▸ hn) fun k hk => (hall k hk).trans hlongest

/-- **A derivation is made of the derivations of its parts.**  As long as the passes are allowed,
`m + n` passes succeed exactly if `m` passes do and `n` more on their result, and give the same
word; if the later part overflows, the whole does at the same pass, and if the first part fails, the
whole fails alike.  A derivation of two words, one after the other, that succeeds is made of
derivations of each.  A higher limit on symbols keeps every result. -/
theorem derive_in_parts (limits : Limits) :
    (∀ start m n, m + n ≤ limits.maxPasses →
      (∀ w, p.derive start (m + n) limits = .ok w ↔
        ∃ t, p.derive start m limits = .ok t ∧ p.derive t n limits = .ok w) ∧
      (∀ t limit required j, p.derive start m limits = .ok t →
        p.derive t n limits = .error (.overflow limit required j) →
          p.derive start (m + n) limits = .error (.overflow limit required (m + j))) ∧
      ∀ e, p.derive start m limits = .error e → p.derive start (m + n) limits = .error e) ∧
    (∀ a b n w, p.derive (a ++ b) n limits = .ok w →
      ∃ u v, p.derive a n limits = .ok u ∧ p.derive b n limits = .ok v ∧ w = u ++ v) ∧
    ∀ limits' : Limits, limits'.maxPasses = limits.maxPasses →
      limits.maxSymbols ≤ limits'.maxSymbols → ∀ start n w,
        p.derive start n limits = .ok w → p.derive start n limits' = .ok w := by
  refine ⟨?_, ?_, ?_⟩
  · intro start m n hmn
    refine ⟨derive_add_eq_ok_iff p hmn, ?_, ?_⟩
    · intro t limit required j ht hj
      exact derive_add_of_overflow p hmn ht hj
    · intro e he
      exact derive_add_of_error p hmn he
  · intro a b n w h
    exact derive_append_eq_ok p h
  · intro limits' hpasses hsymbols start n w h
    exact derive_of_maxSymbols_le p hpasses hsymbols h

end Arbor.Productions
