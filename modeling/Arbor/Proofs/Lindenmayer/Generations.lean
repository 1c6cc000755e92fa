import Arbor.Lindenmayer.Derivation
import Mathlib.Algebra.Order.Ring.Nat
import Mathlib.Data.Nat.Find

/-!
# Generations

`Productions.generation` is the sequence of words that parallel passes make of an axiom when
nothing limits them.  This file compares it with derivations, which count the length of the next
word before they build it and stop above a limit.

The counted length is exact below the largest count (`nextLength_eq`), so a derivation goes through
the generations one by one (`build_getElem?_eq_some_iff`).  It ends with the last one exactly if
none of them passes the limit, and at the first one that does otherwise
(`derive_eq_generation`).  Words on the way count as much as the last one: a grammar that erases
symbols can pass the limit and come back below it.
-/

namespace Arbor.Productions

variable (p : Productions)

/-! ## Words without a limit -/

/-- The word after `k` passes.  In each of them every symbol with a rule becomes its replacement,
all at once, and every other symbol stays. -/
def generation (start : Word) : Nat → Word
  | 0 => start
  | k + 1 => (generation start k).flatMap fun s =>
    match p.get? s with
    | some replacement => replacement
    | none => [s]

@[simp] lemma nextWord_nil : p.nextWord [] = [] := rfl

@[simp] lemma nextWord_cons (s : Symbol) (w : Word) :
    p.nextWord (s :: w) = p.image s ++ p.nextWord w := rfl

lemma nextWord_append (u v : Word) : p.nextWord (u ++ v) = p.nextWord u ++ p.nextWord v :=
  List.flatMap_append

@[simp] lemma generation_zero (start : Word) : p.generation start 0 = start := rfl

lemma generation_succ (start : Word) (k : Nat) :
    p.generation start (k + 1) = p.nextWord (p.generation start k) := by
  rw [generation, nextWord]
  congr 1
  funext s
  cases h : p.get? s <;> simp [image, h]

/-- A pass at the front is a pass at the end. -/
lemma generation_nextWord (w : Word) (k : Nat) :
    p.generation (p.nextWord w) k = p.generation w (k + 1) := by
  induction k with
  | zero => rw [generation_succ, generation_zero, generation_zero]
  | succ k ih => rw [generation_succ, ih, ← generation_succ]

/-! ## Counting ahead -/

lemma length_image (s : Symbol) : (p.image s).length = (p.get? s).elim 1 List.length := by
  cases h : p.get? s <;> simp [image, h]

/-- Counting on from `n` adds the length of the next word, up to the largest count. -/
lemma foldl_countedSum (w : Word) : ∀ n ≤ mostCounted,
    w.foldl (fun n s => countedSum n ((p.get? s).elim 1 List.length)) n =
      min (n + (p.nextWord w).length) mostCounted := by
  induction w with
  | nil => intro n hn; simp [Nat.min_eq_left hn]
  | cons s w ih =>
    intro n hn
    have hstep : countedSum n ((p.get? s).elim 1 List.length) ≤ mostCounted := Nat.min_le_right ..
    rw [List.foldl_cons, ih _ hstep, nextWord_cons, List.length_append, length_image]
    simp only [countedSum]
    omega

/-- The length counted ahead is the length of the word that is then built, up to the largest
count. -/
lemma nextLength_eq (w : Word) : p.nextLength w = min (p.nextWord w).length mostCounted := by
  rw [nextLength, foldl_countedSum p w 0 (Nat.zero_le _), Nat.zero_add]

/-! ## One pass under a limit -/

variable {limit : Nat}

lemma longest_lt_mostCounted (limits : Limits) : limits.longest < mostCounted := by
  have h : limits.longest ≤ 16000000 := Nat.min_le_right ..
  have h' : 16000000 < mostCounted := by decide
  omega

lemma pass_of_le (hl : limit < mostCounted) {w : Word} (h : (p.nextWord w).length ≤ limit)
    (i : Nat) : p.pass limit i w = .ok (p.nextWord w) := by
  rw [pass, if_neg (by rw [nextLength_eq]; omega)]

lemma pass_of_lt (hl : limit < mostCounted) {w : Word} (h : limit < (p.nextWord w).length)
    (i : Nat) :
    p.pass limit i w = .error (.overflow limit (min (p.nextWord w).length mostCounted) i) := by
  rw [pass, if_pos (by rw [nextLength_eq]; omega), nextLength_eq]

/-- A word is built only if its length has been counted exactly and is within the limit. -/
lemma length_of_pass_eq_ok (hl : limit < mostCounted) {w next : Word} {i : Nat}
    (h : p.pass limit i w = .ok next) :
    next.length = p.nextLength w ∧ next.length ≤ limit := by
  rcases Nat.lt_or_ge limit (p.nextWord w).length with hlt | hle
  · rw [pass_of_lt p hl hlt] at h
    cases h
  · rw [pass_of_le p hl hle] at h
    cases h
    rw [nextLength_eq]
    omega

/-! ## Several passes under a limit -/

lemma deriveFrom_of_le (hl : limit < mostCounted) (n : Nat) : ∀ (i : Nat) (w : Word),
    (∀ k ≤ n, (p.generation w k).length ≤ limit) →
      p.deriveFrom limit i n w = .ok (p.generation w n) := by
  induction n with
  | zero => intro i w _; rfl
  | succ n ih =>
    intro i w h
    have hnext : (p.nextWord w).length ≤ limit := by
      simpa [generation_succ] using h 1 (by omega)
    rw [deriveFrom, pass_of_le p hl hnext, ← generation_nextWord]
    refine ih (i + 1) (p.nextWord w) fun k hk => ?_
    rw [generation_nextWord]
    exact h (k + 1) (by omega)

/-- If generation `k + 1` is the first above the limit, a derivation of more than `k` passes stops
at it. -/
lemma deriveFrom_of_lt (hl : limit < mostCounted) (n : Nat) : ∀ (i k : Nat) (w : Word), k < n →
    (∀ j ≤ k, (p.generation w j).length ≤ limit) → limit < (p.generation w (k + 1)).length →
      p.deriveFrom limit i n w =
        .error (.overflow limit (min (p.generation w (k + 1)).length mostCounted) (i + k)) := by
  induction n with
  | zero => intro i k w hk; omega
  | succ n ih =>
    intro i k w hk hbelow habove
    cases k with
    | zero =>
      rw [← generation_nextWord, generation_zero] at habove ⊢
      rw [deriveFrom, pass_of_lt p hl habove]
      rfl
    | succ k =>
      have hnext : (p.nextWord w).length ≤ limit := by
        simpa [generation_succ] using hbelow 1 (by omega)
      rw [← generation_nextWord] at habove ⊢
      rw [deriveFrom, pass_of_le p hl hnext, show i + (k + 1) = i + 1 + k by omega]
      refine ih (i + 1) k (p.nextWord w) (by omega) (fun j hj => ?_) habove
      rw [generation_nextWord]
      exact hbelow (j + 1) (by omega)

/-! ## The words that are built -/

/-- `deriveFrom` with the words that it holds on its way: the one it starts from, and the one that
each pass builds. -/
def buildFrom (limit : Nat) : (iteration passes : Nat) → Word → List Word × Except Failure Word
  | _, 0, w => ([w], .ok w)
  | iteration, passes + 1, w =>
    match p.pass limit iteration w with
    | .ok next =>
      let (words, result) := buildFrom limit (iteration + 1) passes next
      (w :: words, result)
    | .error e => ([w], .error e)

lemma buildFrom_snd (n : Nat) : ∀ (i : Nat) (w : Word),
    (p.buildFrom limit i n w).2 = p.deriveFrom limit i n w := by
  induction n with
  | zero => intro i w; rfl
  | succ n ih =>
    intro i w
    rw [buildFrom, deriveFrom]
    cases p.pass limit i w with
    | error e => rfl
    | ok next => exact ih (i + 1) next

lemma buildFrom_getElem?_eq_some_iff (hl : limit < mostCounted) (n : Nat) :
    ∀ (i k : Nat) (w v : Word), w.length ≤ limit →
      ((p.buildFrom limit i n w).1[k]? = some v ↔
        k ≤ n ∧ (∀ j ≤ k, (p.generation w j).length ≤ limit) ∧ v = p.generation w k) := by
  induction n with
  | zero =>
    intro i k w v hw
    cases k with
    | zero => simp [buildFrom, hw, eq_comm]
    | succ k => simp [buildFrom]
  | succ n ih =>
    intro i k w v hw
    rw [buildFrom]
    rcases Nat.lt_or_ge limit (p.nextWord w).length with hlt | hle
    · rw [pass_of_lt p hl hlt]
      cases k with
      | zero => simp [hw, eq_comm]
      | succ k =>
        -- Generation 1 is above the limit already, so nothing is built behind the start.
        have habove : ¬ ∀ j ≤ k + 1, (p.generation w j).length ≤ limit := fun h => by
          have := h 1 (by omega)
          rw [generation_succ, generation_zero] at this
          omega
        simp [habove]
    · rw [pass_of_le p hl hle]
      cases k with
      | zero => simp [hw, eq_comm]
      | succ k =>
        simp only [List.getElem?_cons_succ, ih _ _ _ _ hle, generation_nextWord]
        refine and_congr (by omega) (and_congr_left fun _ => ⟨fun h j hj => ?_, fun h j hj => ?_⟩)
        · cases j with
          | zero => exact hw
          | succ j => exact h j (by omega)
        · exact h (j + 1) (by omega)

/-- `derive` with the words that it holds on its way; it holds none if it refuses to begin. -/
def build (start : Word) (passes : Nat) (limits : Limits) : List Word × Except Failure Word :=
  if limits.maxPasses < passes then
    ([], .error (.tooManyPasses passes limits.maxPasses))
  else if limits.longest < countedLength start then
    ([], .error (.overflow limits.longest (countedLength start) 0))
  else p.buildFrom limits.longest 1 passes start

lemma build_snd (start : Word) (n : Nat) (limits : Limits) :
    (p.build start n limits).2 = p.derive start n limits := by
  rw [build, derive]
  split_ifs
  · rfl
  · rfl
  · exact buildFrom_snd p n 1 start

lemma longest_lt_countedLength_iff (limits : Limits) (start : Word) :
    limits.longest < countedLength start ↔ limits.longest < start.length := by
  have := longest_lt_mostCounted limits
  rw [countedLength]
  omega

/-- The words held are the generations up to the last one before the limit is passed. -/
lemma build_getElem?_eq_some_iff (start : Word) (n : Nat) (limits : Limits) (k : Nat) (w : Word) :
    (p.build start n limits).1[k]? = some w ↔
      n ≤ limits.maxPasses ∧ k ≤ n ∧
        (∀ j ≤ k, (p.generation start j).length ≤ limits.longest) ∧ w = p.generation start k := by
  rw [build]
  by_cases hn : limits.maxPasses < n
  · simp [if_pos hn, Nat.not_le.mpr hn]
  rw [if_neg hn]
  by_cases hs : limits.longest < start.length
  · have habove : ¬ ∀ j ≤ k, (p.generation start j).length ≤ limits.longest := fun h =>
      absurd (h 0 (Nat.zero_le _)) (Nat.not_le.mpr hs)
    rw [if_pos ((longest_lt_countedLength_iff limits start).mpr hs)]
    simp [habove]
  · rw [if_neg (mt (longest_lt_countedLength_iff limits start).mp hs),
      buildFrom_getElem?_eq_some_iff p (longest_lt_mostCounted limits) n 1 k start w
        (Nat.le_of_not_lt hs)]
    simp [Nat.le_of_not_lt hn]

/-! ## Derivations -/

lemma derive_of_maxPasses_lt (start : Word) {n : Nat} {limits : Limits}
    (hn : limits.maxPasses < n) :
    p.derive start n limits = .error (.tooManyPasses n limits.maxPasses) := by
  rw [derive, if_pos hn]

lemma derive_of_le (start : Word) {n : Nat} {limits : Limits} (hn : n ≤ limits.maxPasses)
    (h : ∀ k ≤ n, (p.generation start k).length ≤ limits.longest) :
    p.derive start n limits = .ok (p.generation start n) := by
  have h0 : start.length ≤ limits.longest := h 0 (Nat.zero_le _)
  rw [derive, if_neg (Nat.not_lt.mpr hn),
    if_neg (mt (longest_lt_countedLength_iff limits start).mp (Nat.not_lt.mpr h0))]
  exact deriveFrom_of_le p (longest_lt_mostCounted limits) n 1 start h

lemma derive_of_lt (start : Word) {n k : Nat} {limits : Limits} (hn : n ≤ limits.maxPasses)
    (hk : k ≤ n) (hbelow : ∀ j < k, (p.generation start j).length ≤ limits.longest)
    (habove : limits.longest < (p.generation start k).length) :
    p.derive start n limits =
      .error (.overflow limits.longest (min (p.generation start k).length mostCounted) k) := by
  rw [derive, if_neg (Nat.not_lt.mpr hn)]
  cases k with
  | zero =>
    rw [if_pos ((longest_lt_countedLength_iff limits start).mpr habove)]
    rfl
  | succ k =>
    have h0 : start.length ≤ limits.longest := hbelow 0 (Nat.succ_pos k)
    rw [if_neg (mt (longest_lt_countedLength_iff limits start).mp (Nat.not_lt.mpr h0)),
      deriveFrom_of_lt p (longest_lt_mostCounted limits) n 1 k start hk
        (fun j hj => hbelow j (by omega)) habove, Nat.add_comm 1 k]

/-- If not every generation is within the limit, there is a first one above it. -/
lemma exists_first_above {start : Word} {n limit : Nat}
    (h : ¬ ∀ k ≤ n, (p.generation start k).length ≤ limit) :
    ∃ k ≤ n, (∀ j < k, (p.generation start j).length ≤ limit) ∧
      limit < (p.generation start k).length := by
  have hex : ∃ k, k ≤ n ∧ limit < (p.generation start k).length := by simpa using h
  have hfirst := Nat.find_spec hex
  refine ⟨Nat.find hex, hfirst.1, fun j hj => ?_, hfirst.2⟩
  have hmin := Nat.find_min hex hj
  have := hfirst.1
  omega

/-- Everything that can come of a derivation: too many passes are refused, and otherwise all
generations are within the limit, or the first one above it makes the derivation fail. -/
lemma derive_cases (start : Word) (n : Nat) (limits : Limits) :
    (limits.maxPasses < n ∧
      p.derive start n limits = .error (.tooManyPasses n limits.maxPasses)) ∨
    (n ≤ limits.maxPasses ∧ (∀ k ≤ n, (p.generation start k).length ≤ limits.longest) ∧
      p.derive start n limits = .ok (p.generation start n)) ∨
    (n ≤ limits.maxPasses ∧ ∃ k ≤ n,
      (∀ j < k, (p.generation start j).length ≤ limits.longest) ∧
      limits.longest < (p.generation start k).length ∧ p.derive start n limits =
        .error (.overflow limits.longest (min (p.generation start k).length mostCounted) k)) := by
  rcases Nat.lt_or_ge limits.maxPasses n with hn | hn
  · exact .inl ⟨hn, derive_of_maxPasses_lt p start hn⟩
  · by_cases hall : ∀ k ≤ n, (p.generation start k).length ≤ limits.longest
    · exact .inr (.inl ⟨hn, hall, derive_of_le p start hn hall⟩)
    · obtain ⟨k, hk, hbelow, habove⟩ := exists_first_above p hall
      exact .inr (.inr ⟨hn, k, hk, hbelow, habove, derive_of_lt p start hn hk hbelow habove⟩)

/-- A derivation succeeds exactly if every generation on its way is within the limit. -/
lemma derive_eq_ok_iff (start : Word) (n : Nat) (limits : Limits) (w : Word) :
    p.derive start n limits = .ok w ↔ n ≤ limits.maxPasses ∧
      (∀ k ≤ n, (p.generation start k).length ≤ limits.longest) ∧ w = p.generation start n := by
  constructor
  · intro h
    obtain ⟨-, hderive⟩ | ⟨hn, hall, hderive⟩ | ⟨-, k, -, -, -, hderive⟩ :=
      derive_cases p start n limits
    · rw [hderive] at h
      cases h
    · rw [hderive] at h
      cases h
      exact ⟨hn, hall, rfl⟩
    · rw [hderive] at h
      cases h
  · rintro ⟨hn, hall, rfl⟩
    exact derive_of_le p start hn hall

/-- A derivation overflows at the first generation above the limit. -/
lemma derive_eq_overflow_iff (start : Word) (n : Nat) (limits : Limits) (limit required k : Nat) :
    p.derive start n limits = .error (.overflow limit required k) ↔ n ≤ limits.maxPasses ∧ k ≤ n ∧
      (∀ j < k, (p.generation start j).length ≤ limits.longest) ∧
      limits.longest < (p.generation start k).length ∧
      limit = limits.longest ∧ required = min (p.generation start k).length mostCounted := by
  constructor
  · intro h
    obtain ⟨-, hderive⟩ | ⟨-, -, hderive⟩ | ⟨hn, k', hk, hbelow, habove, hderive⟩ :=
      derive_cases p start n limits
    · rw [hderive] at h
      cases h
    · rw [hderive] at h
      cases h
    · rw [hderive] at h
      cases h
      exact ⟨hn, hk, hbelow, habove, rfl, rfl⟩
  · rintro ⟨hn, hk, hbelow, habove, rfl, rfl⟩
    exact derive_of_lt p start hn hk hbelow habove

lemma length_le_of_derive_eq_ok {start w : Word} {n : Nat} {limits : Limits}
    (h : p.derive start n limits = .ok w) : w.length ≤ limits.longest := by
  obtain ⟨-, hall, rfl⟩ := (derive_eq_ok_iff p start n limits w).mp h
  exact hall n le_rfl

/-- **Derivations go through the generations.**  A derivation of `n` passes gives generation `n`
exactly if it may have that many passes and *every* generation up to `n` is within the limit.  Too
many passes are refused, and otherwise the first generation above the limit is reported, with its
length as far as it can be counted.  No word above the limit is given or held on the way, and the
length counted ahead is that of the word which is then built. -/
theorem derive_eq_generation (start : Word) (n : Nat) (limits : Limits) :
    limits.longest = min limits.maxSymbols 16000000 ∧
    (∀ w, p.derive start n limits = .ok w ↔
      n ≤ limits.maxPasses ∧ (∀ k ≤ n, (p.generation start k).length ≤ limits.longest) ∧
        w = p.generation start n) ∧
    (limits.maxPasses < n →
      p.derive start n limits = .error (.tooManyPasses n limits.maxPasses)) ∧
    (∀ k ≤ n, n ≤ limits.maxPasses → limits.longest < (p.generation start k).length →
      (∀ j < k, (p.generation start j).length ≤ limits.longest) →
        p.derive start n limits = .error
          (.overflow limits.longest (min (p.generation start k).length (2 ^ 64 - 1)) k)) ∧
    (p.build start n limits).2 = p.derive start n limits ∧
    (∀ w ∈ (p.build start n limits).1, w.length ≤ limits.longest) ∧
    (∀ k w, (p.build start n limits).1[k]? = some w ↔
      n ≤ limits.maxPasses ∧ k ≤ n ∧
        (∀ j ≤ k, (p.generation start j).length ≤ limits.longest) ∧ w = p.generation start k) ∧
    (∀ i w next, p.pass limits.longest i w = .ok next → next.length = p.nextLength w) := by
  refine ⟨rfl, derive_eq_ok_iff p start n limits, derive_of_maxPasses_lt p start,
    fun k hk hn habove hbelow => derive_of_lt p start hn hk hbelow habove,
    build_snd p start n limits, fun w hw => ?_, build_getElem?_eq_some_iff p start n limits,
    fun i w next h => (length_of_pass_eq_ok p (longest_lt_mostCounted limits) h).1⟩
  obtain ⟨k, hk⟩ := List.mem_iff_getElem?.mp hw
  obtain ⟨-, -, hall, rfl⟩ := (build_getElem?_eq_some_iff p start n limits k w).mp hk
  exact hall k le_rfl

end Arbor.Productions
