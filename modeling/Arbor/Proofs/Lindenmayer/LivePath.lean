import Arbor.Proofs.Lindenmayer.Brackets

/-!
# Live paths

Two brackets are partners if the word between them is balanced.  The live path at a place of a
word is what is left of the symbols before it once every pair of partners that closed before the
place is deleted, with all between them, and every `]` without a partner.

Partners are read off the counter of open branches (`partners_iff`), from which it follows that
pairs never cross.  So the live path follows the word symbol by symbol: a `]` with a partner takes
it back to where it was at the partner, a `]` without one leaves it alone, and any other symbol
prolongs it.
-/

namespace Arbor.Word

/-! ## Partners -/

/-- The symbols strictly between two places. -/
def between (w : Word) (a b : Nat) : Word := (w.drop (a + 1)).take (b - (a + 1))

/-- The bracket that opens at `a` is closed by the one at `b`. -/
def Partners (w : Word) (a b : Nat) : Prop :=
  a < b ∧ w[a]? = some .push ∧ w[b]? = some .pop ∧ IsBalanced (between w a b)

instance (w : Word) (a b : Nat) : Decidable (Partners w a b) :=
  inferInstanceAs (Decidable (_ ∧ _ ∧ _ ∧ _))

/-- Without strays the counter goes up and down from where it begins. -/
lemma foldl_nest (v : Word) (h : strays v = []) (d : Nat) : v.foldl nest d = d + depth v := by
  induction v using List.reverseRecOn with
  | nil => rfl
  | append_singleton v x ih =>
    rw [strays, places_concat, ← strays, List.append_eq_nil_iff] at h
    rw [List.foldl_concat, ih h.1, depth_concat]
    cases x with
    | push => simp [nest]; omega
    | pop =>
      have hd : depth v ≠ 0 := by simpa using h.2
      simp only [nest]
      omega
    | _ => rfl

lemma depthAt_add (w : Word) (i m : Nat) (h : strays ((w.drop i).take m) = []) :
    depthAt w (i + m) = depthAt w i + depth ((w.drop i).take m) := by
  rw [← foldl_nest _ h, depthAt, depthAt, depth, depth, List.take_add, List.foldl_append]

lemma strays_take_eq_nil {v : Word} (h : strays v = []) (m : Nat) : strays (v.take m) = [] := by
  have hpre : strays (v.take m) <+: strays (v.take m ++ v.drop m) := places_prefix ..
  rwa [List.take_append_drop, h, List.prefix_nil] at hpre

/-- If the counter stays above the level at which a bracket opens, there are no strays behind it
up to there. -/
lemma strays_between_eq_nil {w : Word} {a b : Nat} (hab : a < b) (ha : w[a]? = some .push)
    (hb : b ≤ w.length) (h : ∀ k, a < k → k ≤ b → depthAt w a < depthAt w k) :
    strays (between w a b) = [] := by
  have hopen : depthAt w (a + 1) = depthAt w a + 1 := depthAt_succ ha
  suffices hall : ∀ m, a + 1 + m ≤ b → strays ((w.drop (a + 1)).take m) = [] from
    hall _ (by omega)
  intro m
  induction m with
  | zero => intro _; rfl
  | succ m ih =>
    intro hm
    have hlt : a + 1 + m < w.length := by omega
    have hx : (w.drop (a + 1))[m]? = some w[a + 1 + m] := by simp [hlt]
    have hbefore := ih (by omega)
    rw [take_succ_of_getElem? hx, strays, places_concat, ← strays, hbefore, List.nil_append,
      ite_eq_right_iff]
    intro hstray
    simp only [Bool.and_eq_true, decide_eq_true_eq] at hstray
    -- A stray one would bring the counter down to the level of the opening bracket.
    have hlevel := depthAt_add w (a + 1) m hbefore
    have hclose : depthAt w (a + 1 + m + 1) = nest (depthAt w (a + 1 + m)) w[a + 1 + m] :=
      depthAt_succ (by simp [hlt])
    have hnest : depthAt w (a + 1 + m + 1) = depthAt w (a + 1 + m) - 1 := by
      rw [hclose, hstray.1, nest]
    have := h (a + 1 + m + 1) (by omega) (by omega)
    omega

/-- Partners are the brackets between which the counter stays above the level outside. -/
lemma partners_iff {w : Word} {a b : Nat} : Partners w a b ↔
    a < b ∧ w[a]? = some .push ∧ w[b]? = some .pop ∧ depthAt w b = depthAt w a + 1 ∧
      ∀ k, a < k → k ≤ b → depthAt w a < depthAt w k := by
  rw [Partners]
  refine and_congr_right fun hab => and_congr_right fun ha => and_congr_right fun hb => ?_
  have hopen : depthAt w (a + 1) = depthAt w a + 1 := depthAt_succ ha
  have hlen : b < w.length := (List.getElem?_eq_some_iff.mp hb).1
  rw [isBalanced_iff]
  constructor
  · rintro ⟨hs, hd⟩
    have hlevel : ∀ k, a < k → k ≤ b →
        depthAt w k = depthAt w a + 1 + depth ((between w a b).take (k - (a + 1))) := by
      intro k hak hkb
      have htake : (between w a b).take (k - (a + 1)) = (w.drop (a + 1)).take (k - (a + 1)) := by
        rw [between, List.take_take, Nat.min_eq_left (by omega)]
      rw [htake, ← hopen, ← depthAt_add w (a + 1) (k - (a + 1))
        (htake ▸ strays_take_eq_nil hs _), show a + 1 + (k - (a + 1)) = k by omega]
    refine ⟨?_, fun k hak hkb => ?_⟩
    · rw [hlevel b hab le_rfl, List.take_of_length_le (by simp [between]), hd]
    · rw [hlevel k hak hkb]
      omega
  · rintro ⟨hd, h⟩
    have hs := strays_between_eq_nil hab ha hlen.le h
    refine ⟨hs, ?_⟩
    have hlevel := depthAt_add w (a + 1) (b - (a + 1)) hs
    rw [show a + 1 + (b - (a + 1)) = b by omega, ← between] at hlevel
    omega

lemma Partners.depthAt_eq {w : Word} {a b : Nat} (h : Partners w a b) :
    depthAt w b = depthAt w a + 1 := (partners_iff.mp h).2.2.2.1

/-- A closing bracket has a partner if a branch is open before it: the last place at which fewer
branches were open. -/
lemma exists_partners {w : Word} {b : Nat} (hb : w[b]? = some .pop) (hd : 0 < depthAt w b) :
    ∃ a, Partners w a b := by
  let below (a : Nat) : Prop := depthAt w a < depthAt w b
  have hlen : b < w.length := (List.getElem?_eq_some_iff.mp hb).1
  let a := Nat.findGreatest below b
  have hbelow : depthAt w a < depthAt w b :=
    Nat.findGreatest_spec (P := below) (Nat.zero_le b) (by simpa [below] using hd)
  have hle : a ≤ b := Nat.findGreatest_le b
  have hne : a ≠ b := fun h => by rw [h] at hbelow; omega
  have habove : ∀ k, a < k → k ≤ b → depthAt w b ≤ depthAt w k := fun k hak hkb =>
    Nat.le_of_not_lt (Nat.findGreatest_is_greatest (P := below) hak hkb)
  have hx : w[a]? = some w[a] := List.getElem?_eq_getElem (by omega)
  have hnest := depthAt_succ hx
  have hnext := habove (a + 1) (by omega) (by omega)
  refine ⟨a, partners_iff.mpr ⟨by omega, ?_, hb, ?_, fun k hak hkb => ?_⟩⟩
  · -- Only an opening bracket makes the counter rise.
    rw [hx]
    cases hw : w[a] with
    | push => rfl
    | _ =>
      rw [hw] at hnest
      simp only [nest] at hnest
      omega
  · have hrise : nest (depthAt w a) w[a] ≤ depthAt w a + 1 := by
      cases w[a] <;> simp only [nest] <;> omega
    omega
  · have := habove k hak hkb
    omega

lemma exists_partners_iff {w : Word} {b : Nat} (hb : w[b]? = some .pop) :
    (∃ a, Partners w a b) ↔ 0 < depthAt w b := by
  refine ⟨fun ⟨a, h⟩ => ?_, exists_partners hb⟩
  rw [h.depthAt_eq]
  omega

/-- Pairs of partners do not cross: one that holds a place before another pair and closes before
that pair does is closed before it opens. -/
lemma Partners.lt_of_lt {w : Word} {a b a' b' : Nat} (h : Partners w a b) (h' : Partners w a' b')
    (ha : a' < a) (hb : b' ≤ b) : b' < a := by
  obtain ⟨hab, -, -, hd, habove⟩ := partners_iff.mp h
  obtain ⟨hab', -, hpop', hd', habove'⟩ := partners_iff.mp h'
  by_contra hcross
  have hopen := habove' a ha (by omega)
  have hclose : depthAt w (b' + 1) = depthAt w b' - 1 := depthAt_succ hpop'
  rcases Nat.lt_or_ge b' b with hlt | hge
  · have := habove (b' + 1) (by omega) (by omega)
    omega
  · have : b' = b := by omega
    subst this
    omega

/-! ## The live path -/

/-- The place `j` lies in a pair of partners that closes before `i`. -/
def ClosedBefore (w : Word) (i j : Nat) : Prop := ∃ b < i, j ≤ b ∧ ∃ a ≤ j, Partners w a b

/-- There is a closing bracket without a partner at `j`. -/
def Unmatched (w : Word) (j : Nat) : Prop := w[j]? = some .pop ∧ ∀ a < j, ¬ Partners w a j

instance (w : Word) (i j : Nat) : Decidable (ClosedBefore w i j) :=
  inferInstanceAs (Decidable (∃ b < i, _))

instance (w : Word) (j : Nat) : Decidable (Unmatched w j) :=
  inferInstanceAs (Decidable (_ ∧ _))

/-- The places before `i` of the symbols that are left when closed pairs and unmatched closing
brackets are deleted. -/
def livePath (w : Word) (i : Nat) : List Nat :=
  (List.range i).filter fun j => ¬ ClosedBefore w i j ∧ ¬ Unmatched w j

/-- The place of the last move, drawn or not, on the live path. -/
def lastMove (w : Word) (i : Nat) : Option Nat :=
  ((livePath w i).filter fun j => w[j]? = some .forward ∨ w[j]? = some .skip).getLast?

@[simp] lemma livePath_zero (w : Word) : livePath w 0 = [] := rfl

lemma unmatched_iff {w : Word} {j : Nat} : Unmatched w j ↔ w[j]? = some .pop ∧ depthAt w j = 0 := by
  refine and_congr_right fun hj => ?_
  have hiff := exists_partners_iff hj
  constructor
  · intro h
    by_contra hd
    obtain ⟨a, ha⟩ := hiff.mpr (Nat.pos_of_ne_zero hd)
    exact h a ha.1 ha
  · intro hd a _ ha
    have := hiff.mp ⟨a, ha⟩
    omega

/-- One more symbol closes nothing unless it is a bracket with a partner. -/
lemma closedBefore_succ {w : Word} {i : Nat} (hi : ∀ a, ¬ Partners w a i) (j : Nat) :
    ClosedBefore w (i + 1) j ↔ ClosedBefore w i j := by
  constructor
  · rintro ⟨b, hb, hjb, a, haj, h⟩
    have hne : b ≠ i := fun he => hi a (he ▸ h)
    exact ⟨b, by omega, hjb, a, haj, h⟩
  · rintro ⟨b, hb, h⟩
    exact ⟨b, by omega, h⟩

lemma livePath_succ_of_not_partners {w : Word} {i : Nat} (hi : ∀ a, ¬ Partners w a i) :
    livePath w (i + 1) = livePath w i ++ if Unmatched w i then [] else [i] := by
  have hself : ¬ ClosedBefore w (i + 1) i := by
    rw [closedBefore_succ hi]
    rintro ⟨b, hb, hjb, -⟩
    omega
  rw [livePath, List.range_succ, List.filter_append, List.filter_congr (q := fun j =>
    decide (¬ ClosedBefore w i j ∧ ¬ Unmatched w j))
      fun j _ => by simp only [closedBefore_succ hi], ← livePath]
  congr 1
  by_cases hu : Unmatched w i <;> simp [hself, hu]

/-- A symbol that is no closing bracket prolongs the live path. -/
lemma livePath_succ_of_ne_pop {w : Word} {i : Nat} (hi : w[i]? ≠ some .pop) :
    livePath w (i + 1) = livePath w i ++ [i] := by
  rw [livePath_succ_of_not_partners fun a h => hi h.2.2.1, if_neg fun h => hi h.1]

/-- A closing bracket without a partner leaves the live path alone. -/
lemma livePath_succ_of_unmatched {w : Word} {i : Nat} (hi : Unmatched w i) :
    livePath w (i + 1) = livePath w i := by
  rw [livePath_succ_of_not_partners fun a h => hi.2 a h.1 h, if_pos hi, List.append_nil]

/-- A closing bracket takes the live path back to its partner. -/
lemma livePath_succ_of_partners {w : Word} {a i : Nat} (h : Partners w a i) :
    livePath w (i + 1) = livePath w a := by
  have hai := h.1
  have hbehind : (List.map (a + ·) (List.range (i + 1 - a))).filter
      (fun j => decide (¬ ClosedBefore w (i + 1) j ∧ ¬ Unmatched w j)) = [] := by
    rw [List.filter_eq_nil_iff]
    intro j hj
    obtain ⟨m, hm, rfl⟩ := List.mem_map.mp hj
    have := List.mem_range.mp hm
    have hclosed : ClosedBefore w (i + 1) (a + m) :=
      ⟨i, by omega, by omega, a, by omega, h⟩
    simp [hclosed]
  rw [livePath, show i + 1 = a + (i + 1 - a) by omega, List.range_add, List.filter_append,
    show a + (i + 1 - a) = i + 1 by omega, hbehind, List.append_nil, livePath]
  refine List.filter_congr fun j hj => ?_
  have hja := List.mem_range.mp hj
  have hiff : ClosedBefore w (i + 1) j ↔ ClosedBefore w a j := by
    constructor
    · rintro ⟨b', hb', hjb, a', haj, h'⟩
      exact ⟨b', h.lt_of_lt h' (by omega) (by omega), hjb, a', haj, h'⟩
    · rintro ⟨b', hb', h'⟩
      exact ⟨b', by omega, h'⟩
  simp only [hiff]

example : livePath (ofText "F[+F]]-[F") 9 = [0, 6, 7, 8] := by decide +kernel

/-! ## The last move -/

lemma lastMove_succ_of_move {w : Word} {i : Nat}
    (hi : w[i]? = some .forward ∨ w[i]? = some .skip) : lastMove w (i + 1) = some i := by
  rw [lastMove, livePath_succ_of_ne_pop (by rcases hi with h | h <;> simp [h]), List.filter_append]
  simp [hi]

/-- A symbol that neither moves nor closes a branch keeps the last move. -/
lemma lastMove_succ_of_ne {w : Word} {i : Nat} (hf : w[i]? ≠ some .forward)
    (hs : w[i]? ≠ some .skip) (hp : w[i]? ≠ some .pop ∨ Unmatched w i) :
    lastMove w (i + 1) = lastMove w i := by
  rcases hp with hp | hu
  · rw [lastMove, livePath_succ_of_ne_pop hp, List.filter_append]
    simp [hf, hs, lastMove]
  · rw [lastMove, livePath_succ_of_unmatched hu, ← lastMove]

lemma lastMove_succ_of_partners {w : Word} {a i : Nat} (h : Partners w a i) :
    lastMove w (i + 1) = lastMove w a := by
  rw [lastMove, livePath_succ_of_partners h, ← lastMove]

/-- The last move is a move, and it is before the place. -/
lemma lastMove_eq_some {w : Word} {i j : Nat} (h : lastMove w i = some j) :
    j < i ∧ (w[j]? = some .forward ∨ w[j]? = some .skip) := by
  have hmem := List.mem_of_getLast? h
  rw [List.mem_filter, livePath, List.mem_filter] at hmem
  exact ⟨List.mem_range.mp hmem.1.1, by simpa using hmem.2⟩

/-! ## Counts along the live path -/

/-- **Induction along live paths.**  A property of places holds everywhere if it holds at the start,
passes on over every symbol that prolongs the live path and over every unmatched `]`, and passes
from an opening bracket to the place behind its partner. -/
theorem live_induction {w : Word} {P : Nat → Prop} (start : P 0)
    (prolong : ∀ i x, w[i]? = some x → x ≠ .pop → P i → P (i + 1))
    (stray : ∀ i, Unmatched w i → P i → P (i + 1))
    (back : ∀ a i, Partners w a i → P a → P (i + 1)) : ∀ i ≤ w.length, P i := by
  intro i
  induction i using Nat.strong_induction_on with
  | _ i ih =>
    intro hi
    cases i with
    | zero => exact start
    | succ i =>
      have hx : w[i]? = some w[i] := List.getElem?_eq_getElem hi
      by_cases hp : w[i] = .pop
      · rw [hp] at hx
        by_cases hd : depthAt w i = 0
        · exact stray i (unmatched_iff.mpr ⟨hx, hd⟩) (ih i (by omega) (by omega))
        · obtain ⟨a, ha⟩ := exists_partners hx (Nat.pos_of_ne_zero hd)
          have hai := ha.1
          exact back a i ha (ih a (by omega) (by omega))
      · exact prolong i _ hx hp (ih i (by omega) (by omega))

/-- How many symbols of a kind are on the live path at a place. -/
def liveCount (kind : Symbol → Bool) (w : Word) (i : Nat) : Nat :=
  (livePath w i).countP fun j => w[j]?.any kind

/-- How many moves, drawn or not, are on the live path. -/
def moves : Word → Nat → Nat := liveCount fun x => decide (x = .forward ∨ x = .skip)

/-- How many opening brackets are on the live path. -/
def pushes : Word → Nat → Nat := liveCount fun x => decide (x = .push)

section LiveCount

variable (kind : Symbol → Bool) {w : Word} {i : Nat}

lemma liveCount_succ {x : Symbol} (hx : w[i]? = some x) (hp : x ≠ .pop) :
    liveCount kind w (i + 1) = liveCount kind w i + if kind x then 1 else 0 := by
  rw [liveCount, livePath_succ_of_ne_pop (by simpa [hx] using hp), List.countP_append,
    ← liveCount, List.countP_singleton, hx, Option.any_some]

lemma liveCount_succ_of_unmatched (h : Unmatched w i) :
    liveCount kind w (i + 1) = liveCount kind w i := by
  rw [liveCount, livePath_succ_of_unmatched h, ← liveCount]

lemma liveCount_succ_of_partners {a : Nat} (h : Partners w a i) :
    liveCount kind w (i + 1) = liveCount kind w a := by
  rw [liveCount, livePath_succ_of_partners h, ← liveCount]

lemma moves_succ {x : Symbol} (hx : w[i]? = some x) (hp : x ≠ .pop) :
    moves w (i + 1) = moves w i + if x = .forward ∨ x = .skip then 1 else 0 := by
  rw [moves, liveCount_succ _ hx hp]
  simp only [decide_eq_true_eq]

lemma pushes_succ {x : Symbol} (hx : w[i]? = some x) (hp : x ≠ .pop) :
    pushes w (i + 1) = pushes w i + if x = .push then 1 else 0 := by
  rw [pushes, liveCount_succ _ hx hp]
  simp only [decide_eq_true_eq]

end LiveCount

/-- The branches that are open at a place are the opening brackets on its live path. -/
lemma depthAt_eq_pushes (w : Word) : ∀ i ≤ w.length, depthAt w i = pushes w i := by
  refine live_induction rfl (fun i x hx hp ih => ?_) (fun i hu ih => ?_) fun a i h ih => ?_
  · rw [pushes_succ hx hp, ← ih, depthAt_succ hx]
    cases x with
    | push => rfl
    | pop => exact absurd rfl hp
    | _ => rfl
  · obtain ⟨hpop, hd⟩ := unmatched_iff.mp hu
    rw [pushes, liveCount_succ_of_unmatched _ hu, ← pushes, ← ih, depthAt_succ hpop, hd, nest]
  · rw [pushes, liveCount_succ_of_partners _ h, ← pushes, ← ih, depthAt_succ h.2.2.1,
      h.depthAt_eq, nest, Nat.add_sub_cancel]

example : moves (ofText "F[+F]]f[F") 8 = 2 ∧ pushes (ofText "F[+F]]f[F") 8 = 1 := by
  decide +kernel

end Arbor.Word
