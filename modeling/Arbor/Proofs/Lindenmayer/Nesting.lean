import Arbor.Proofs.Lindenmayer.LivePath
import Mathlib.Data.List.Pairwise

/-!
# Nesting

The branches that are open at a place are the opening brackets on its live path, from the outside
in; the last of them is the innermost one.  Its place determines the counter
(`depthAt_eq_elim_innermost`), but not the other way round: siblings have one depth and different
brackets.

A drawn move goes on from an earlier one if both have the same innermost branch and no undrawn move
is on the live path between them.  Then the earlier one is the last move of the later one
(`Consecutive.lastMove_eq`), whatever branches were opened and closed in between.
-/

namespace Arbor.Word

variable {w : Word} {a b i j k : Nat}

/-! ## Places of a live path -/

lemma mem_livePath : j ∈ livePath w i ↔ j < i ∧ ¬ ClosedBefore w i j ∧ ¬ Unmatched w j := by
  rw [livePath, List.mem_filter, List.mem_range, decide_eq_true_iff]

lemma livePath_pairwise_lt (w : Word) (i : Nat) : (livePath w i).Pairwise (· < ·) :=
  List.pairwise_lt_range.filter _

/-- The live path at a place that is itself live later is the part of the later one before it. -/
lemma mem_livePath_of_mem (hj : j ∈ livePath w i) (hk : k < j) :
    k ∈ livePath w j ↔ k ∈ livePath w i := by
  obtain ⟨hji, hopen, -⟩ := mem_livePath.mp hj
  have hclosed : ClosedBefore w i k ↔ ClosedBefore w j k := by
    constructor
    · rintro ⟨b, hb, hkb, a, hak, h⟩
      -- A pair that closes behind `j` would hold `j` too.
      by_cases hbj : b < j
      · exact ⟨b, hbj, hkb, a, hak, h⟩
      · exact absurd ⟨b, hb, by omega, a, by omega, h⟩ hopen
    · rintro ⟨b, hb, h⟩
      exact ⟨b, by omega, h⟩
  rw [mem_livePath, mem_livePath, hclosed]
  simp [hk, hk.trans hji]

/-- A bracket has one partner. -/
lemma Partners.right_unique {b' : Nat} (h : Partners w a b) (h' : Partners w a b') : b = b' := by
  have hle : ∀ {b b' : Nat}, Partners w a b → Partners w a b' → b ≤ b' := by
    intro b b' h h'
    by_contra! hlt
    have hclose : depthAt w (b' + 1) = depthAt w b' - 1 := depthAt_succ h'.2.2.1
    have habove := (partners_iff.mp h).2.2.2.2 (b' + 1) (by have := h'.1; omega) hlt
    rw [hclose, h'.depthAt_eq] at habove
    omega
  exact le_antisymm (hle h h') (hle h' h)

/-- Up to its partner an opening bracket is live. -/
lemma Partners.mem_livePath (h : Partners w a b) (hai : a < i) (hib : i ≤ b) :
    a ∈ livePath w i := by
  refine Word.mem_livePath.mpr ⟨hai, ?_, fun hu => ?_⟩
  · rintro ⟨b', hb', hab', a', haa', h'⟩
    rcases haa'.lt_or_eq with hlt | rfl
    · have := h.lt_of_lt h' hlt (by omega)
      omega
    · have := h.right_unique h'
      omega
  · have := h.2.1.symm.trans hu.1
    cases this

/-! ## The innermost branch -/

/-- The brackets of the branches that are open at `i`, from the outside in. -/
def openings (w : Word) (i : Nat) : List Nat := (livePath w i).filter fun j => w[j]? = some .push

/-- The bracket of the innermost branch that is open at `i`. -/
def innermost (w : Word) (i : Nat) : Option Nat := (openings w i).getLast?

lemma mem_openings : j ∈ openings w i ↔ j ∈ livePath w i ∧ w[j]? = some .push := by
  rw [openings, List.mem_filter, decide_eq_true_iff]

lemma innermost_succ_of_push (hi : w[i]? = some .push) : innermost w (i + 1) = some i := by
  rw [innermost, openings, livePath_succ_of_ne_pop (by simp [hi]), List.filter_append]
  simp [hi]

/-- A symbol that neither opens nor closes a branch keeps the innermost one. -/
lemma innermost_succ_of_ne (ho : w[i]? ≠ some .push) (hc : w[i]? ≠ some .pop ∨ Unmatched w i) :
    innermost w (i + 1) = innermost w i := by
  rcases hc with hc | hu
  · rw [innermost, openings, livePath_succ_of_ne_pop hc, List.filter_append]
    simp [ho, innermost, openings]
  · rw [innermost, openings, livePath_succ_of_unmatched hu, ← openings, ← innermost]

lemma innermost_succ_of_partners (h : Partners w a i) : innermost w (i + 1) = innermost w a := by
  rw [innermost, openings, livePath_succ_of_partners h, ← openings, ← innermost]

/-- The counter stands one above where it stood at the bracket of the innermost branch. -/
lemma depthAt_eq_elim_innermost (w : Word) (i : Nat) : i ≤ w.length →
    depthAt w i = (innermost w i).elim 0 fun a => depthAt w a + 1 := by
  induction i using Nat.strong_induction_on with
  | _ i ih =>
    intro hi
    cases i with
    | zero => rfl
    | succ i =>
      have hx : w[i]? = some w[i] := List.getElem?_eq_getElem hi
      have hnest := depthAt_succ hx
      cases hw : w[i] with
      | push =>
        rw [hw] at hx hnest
        rw [innermost_succ_of_push hx, hnest, nest, Option.elim_some]
      | pop =>
        rw [hw] at hx hnest
        by_cases hd : depthAt w i = 0
        · have hu : Unmatched w i := unmatched_iff.mpr ⟨hx, hd⟩
          rw [innermost_succ_of_ne (by simp [hx]) (.inr hu), ← ih i (by omega) (by omega), hnest,
            nest, hd]
        · -- The counter goes back to where it was at the partner.
          obtain ⟨a, ha⟩ := exists_partners hx (Nat.pos_of_ne_zero hd)
          have hai := ha.1
          rw [innermost_succ_of_partners ha, ← ih a (by omega) (by omega), hnest, nest,
            ha.depthAt_eq, Nat.add_sub_cancel]
      | _ =>
        rw [hw] at hx hnest
        simp only [nest] at hnest
        rw [innermost_succ_of_ne (by simp [hx]) (.inl (by simp [hx])), hnest]
        exact ih i (by omega) (by omega)

/-- Places with the same innermost branch have the same depth. -/
lemma depthAt_eq_of_innermost_eq (hi : i ≤ w.length) (hj : j ≤ w.length)
    (h : innermost w i = innermost w j) : depthAt w i = depthAt w j := by
  rw [depthAt_eq_elim_innermost w i hi, depthAt_eq_elim_innermost w j hj, h]

example : innermost (ofText "F[F][F]") 2 = some 1 ∧ innermost (ofText "F[F][F]") 5 = some 4 := by
  decide +kernel

/-- In a list in order, the last place is the largest. -/
lemma exists_getLast?_of_mem {l : List Nat} (hl : l.Pairwise (· < ·)) (ha : a ∈ l) :
    ∃ c ∈ l, l.getLast? = some c ∧ a ≤ c := by
  have hne : l ≠ [] := List.ne_nil_of_mem ha
  exact ⟨l.getLast hne, List.getLast_mem hne, List.getLast?_eq_some_getLast hne,
    (hl.imp Nat.le_of_lt).rel_getLast ha⟩

/-- A symbol that is no bracket is live at a later place with the same innermost branch: a pair
that closed around it would have closed around that branch too. -/
lemma mem_livePath_of_innermost_eq (hij : i < j) (ho : w[i]? ≠ some .push)
    (hc : w[i]? ≠ some .pop) (h : innermost w i = innermost w j) : i ∈ livePath w j := by
  refine mem_livePath.mpr ⟨hij, ?_, fun hu => hc hu.1⟩
  rintro ⟨b, hbj, hib, a, hai, hab⟩
  have hai : a < i := hai.lt_of_ne fun he => ho (he ▸ hab.2.1)
  have hopen : a ∈ openings w i := mem_openings.mpr ⟨hab.mem_livePath hai hib, hab.2.1⟩
  obtain ⟨c, hc, hlast, hac⟩ := exists_getLast?_of_mem ((livePath_pairwise_lt w i).filter _) hopen
  have hci : c < i := (mem_livePath.mp (mem_openings.mp hc).1).1
  have hcj : c ∈ openings w j := List.mem_of_getLast? (h.symm.trans hlast)
  exact (mem_livePath.mp (mem_openings.mp hcj).1).2.1 ⟨b, hbj, by omega, a, hac, hab⟩

/-! ## Moves that go on from each other -/

/-- The drawn moves at `i` and `j` have none between them. -/
structure Consecutive (w : Word) (i j : Nat) : Prop where
  lt : i < j
  first : w[i]? = some .forward
  second : w[j]? = some .forward
  between : ∀ k < j, i < k → w[k]? ≠ some .forward

/-- The place `j` has the innermost branch of `i`, and no undrawn move is on its live path since. -/
structure GoesOn (w : Word) (i j : Nat) : Prop where
  innermost : innermost w i = innermost w j
  drawn : ∀ k ∈ livePath w j, i < k → w[k]? ≠ some .skip

instance (w : Word) (i j : Nat) : Decidable (GoesOn w i j) :=
  decidable_of_iff (_ ∧ ∀ k ∈ livePath w j, i < k → w[k]? ≠ some .skip)
    ⟨fun h => ⟨h.1, h.2⟩, fun h => ⟨h.innermost, h.drawn⟩⟩

namespace GoesOn

lemma refl (w : Word) (i : Nat) : GoesOn w i i where
  innermost := rfl
  drawn k hk hik := by
    have := (Word.mem_livePath.mp hk).1
    omega

lemma mem_livePath (h : GoesOn w i j) (hij : i < j) (hi : w[i]? = some .forward) :
    i ∈ livePath w j :=
  mem_livePath_of_innermost_eq hij (by simp [hi]) (by simp [hi]) h.innermost

/-- What goes on from a drawn move that goes on from another goes on from that one. -/
lemma trans (h : GoesOn w i j) (h' : GoesOn w j k) (hjk : j < k) (hj : w[j]? = some .forward) :
    GoesOn w i k where
  innermost := h.innermost.trans h'.innermost
  drawn m hm him := by
    rcases lt_trichotomy m j with hmj | rfl | hjm
    · have hlive := (mem_livePath_of_mem (h'.mem_livePath hjk hj) hmj).mpr hm
      exact h.drawn m hlive him
    · simp [hj]
    · exact h'.drawn m hm hjm

end GoesOn

namespace Consecutive

/-- The earlier of two consecutive drawn moves is the last move of the later if that goes on from
it. -/
lemma lastMove_eq (h : Consecutive w i j) (hgoes : GoesOn w i j) : lastMove w j = some i := by
  have hmove : i ∈ (livePath w j).filter fun k =>
      w[k]? = some .forward ∨ w[k]? = some .skip := by
    simp [hgoes.mem_livePath h.lt h.first, h.first]
  obtain ⟨c, hc, hlast, hic⟩ := exists_getLast?_of_mem ((livePath_pairwise_lt w j).filter _) hmove
  obtain ⟨hlive, hkind⟩ := List.mem_filter.mp hc
  have hcj : c < j := (Word.mem_livePath.mp hlive).1
  rcases hic.lt_or_eq with hlt | rfl
  · rcases of_decide_eq_true hkind with hf | hs
    · exact absurd hf (h.between c hcj hlt)
    · exact absurd hs (hgoes.drawn c hlive hlt)
  · exact hlast

/-- The numbers of consecutive drawn moves are consecutive. -/
lemma count_take (h : Consecutive w i j) :
    (w.take j).count .forward = (w.take i).count .forward + 1 := by
  have hnone : (Word.between w i j).count .forward = 0 := by
    rw [List.count_eq_zero]
    intro hmem
    obtain ⟨m, hm⟩ := List.mem_iff_getElem?.mp hmem
    rw [Word.between, List.getElem?_take] at hm
    split_ifs at hm with hmj
    rw [List.getElem?_drop] at hm
    exact h.between (i + 1 + m) (by omega) (by omega) hm
  have hij := h.lt
  rw [show j = i + 1 + (j - (i + 1)) by omega, List.take_add, ← Word.between, List.count_append,
    hnone, take_succ_of_getElem? h.first, List.count_append]
  simp

end Consecutive

/-- Before a drawn move that is not the first comes one that is consecutive to it. -/
lemma exists_consecutive (hij : i < j) (hi : w[i]? = some .forward) (hj : w[j]? = some .forward) :
    ∃ k, i ≤ k ∧ Consecutive w k j := by
  let drawn (k : Nat) : Prop := w[k]? = some .forward
  have hle : i ≤ j - 1 := by omega
  have hlast : Nat.findGreatest drawn (j - 1) ≤ j - 1 := Nat.findGreatest_le (j - 1)
  refine ⟨Nat.findGreatest drawn (j - 1), Nat.le_findGreatest hle hi, by omega,
    Nat.findGreatest_spec (P := drawn) hle hi, hj, fun k hkj hk => ?_⟩
  exact Nat.findGreatest_is_greatest (P := drawn) hk (by omega)

end Arbor.Word
