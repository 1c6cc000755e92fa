import Arbor.Proofs.Document.Blocks
import Arbor.Proofs.Document.Escapes

/-!
# Lines of a document

What the scanner makes of the lines that the writer writes.  Between two lines it is in one of few
states (`Ready`): outside of flow brackets, with no possible key kept.  A key and its colon are two
tokens (`reads_key`), whatever follows is one or opens a group, and each step brings the scanner to
the next line.
-/

namespace Arbor.Document

open Scalar

variable {c c' : Cursor} {key text rest next : List Char} {indent : ℤ} {outer : List ℤ} {column : ℕ}
  {tokens : List Token}

lemma IsWordChar.utf8Size_eq {ch : Char} (h : IsWordChar ch) : ch.utf8Size = 1 := by
  rcases h with h | h
  · have hrange := toNat_of_isAlphanum h
    exact Char.utf8Size_eq_one_iff.mpr (UInt32.le_iff_toNat_le.mpr (hrange.2.trans (by decide)))
  · have hall : ['.', '-', '_'].all (fun d => d.utf8Size == 1) = true := by decide
    simpa using List.all_eq_true.mp hall ch h

namespace Scanner

/-! ## Reading step by step -/

/-- Up to the next token: white space is skipped and collections to the right are closed. -/
def settle (s : Scanner) : Option Scanner := do
  let s ← s.toToken.dropStale
  return s.unroll s.cursor.column

/-- A number of tokens are read one after another, none of which is the last one. -/
inductive Reads : ℕ → Scanner → Scanner → Prop where
  | refl (s : Scanner) : Reads 0 s s
  | step {n : ℕ} {s s₁ s₂ s₃ : Scanner} (hsettle : s.settle = some s₁) (hread : s₁.read = some s₂)
      (hgoing : s₂.tokens.back? ≠ some .streamEnd) (hrest : Reads n s₂ s₃) : Reads (n + 1) s s₃

lemma Reads.trans {m n : ℕ} {s s' s'' : Scanner} (h : Reads m s s') (h' : Reads n s' s'') :
    Reads (m + n) s s'' := by
  induction h with
  | refl => rwa [Nat.zero_add]
  | step hsettle hread hgoing _ ih =>
    rw [Nat.add_right_comm]
    exact .step hsettle hread hgoing (ih h')

lemma Reads.single {s s₁ s₂ : Scanner} (hsettle : s.settle = some s₁) (hread : s₁.read = some s₂)
    (hgoing : s₂.tokens.back? ≠ some .streamEnd) : Reads 1 s s₂ :=
  .step hsettle hread hgoing (.refl _)

lemma run_succ (fuel : ℕ) (s : Scanner) : run (fuel + 1) s = (s.settle.bind read).bind fun s =>
    if s.tokens.back? == some .streamEnd then some s.tokens.toList else run fuel s := by
  rw [run, settle]
  cases s.toToken.dropStale <;> rfl

lemma Reads.run_eq {n : ℕ} {s s' : Scanner} (h : Reads n s s') (fuel : ℕ) :
    run (n + fuel) s = run fuel s' := by
  induction h with
  | refl => rw [Nat.zero_add]
  | step hsettle hread hgoing _ ih =>
    rw [Nat.add_right_comm, run_succ, hsettle, Option.bind_some, hread, Option.bind_some,
      if_neg (by simpa using hgoing), ih]

/-! ## Up to the next token -/

/-- Outside of flow brackets. -/
abbrev flat (c : Cursor) (tokens : List Token) (indent : ℤ) (outer : List ℤ) (allowed : Bool)
    (keys : List PossibleKey) : Scanner :=
  ⟨c, tokens.toArray, 0, indent, outer, allowed, keys⟩

/-- A token may start here, but no comment. -/
def AtToken (rest : List Char) : Prop := AtWord rest ∧ rest.head? ≠ some '#'

/-- A line starts here with a key, or the text is at its end. -/
def AtKey (next : List Char) : Prop := ∀ ch ∈ next.head?, ch.isAlpha = true

lemma AtKey.atToken (h : AtKey next) : AtToken next := by
  refine ⟨fun ch hch => IsWordChar.inWord (.inl ?_), fun hsign => ?_⟩
  · simp [Char.isAlphanum, h ch hch]
  · cases h '#' hsign

lemma AtKey.no_mark (h : AtKey next) (k : ℕ) :
    (List.replicate k ' ' ++ next).head? ≠ some '\ufeff' := by
  cases k with
  | zero =>
    intro hmark
    cases h '\ufeff' hmark
  | succ k => simp [List.replicate_succ]

lemma go_spaces (s : Scanner) (fuel k : ℕ) (allowed : Bool)
    (hc : c.rest = List.replicate k ' ' ++ next) (hnext : AtToken next)
    (hmark : c.rest.head? ≠ some '\ufeff') :
    toToken.go s (fuel + 1) allowed c = (allowed, c.skip k) := by
  obtain ⟨hword, hsign⟩ := hnext
  have hmark : c.at? (· == '\ufeff') = false := Cursor.at?_eq_false fun ch hch => by
    apply beq_false_of_ne
    rintro rfl
    exact hmark hch
  have htake : c.rest.takeWhile (fun ch => ch == ' ' || ((s.flow != 0 || !allowed) && ch == '\t')) =
      List.replicate k ' ' := by
    rw [hc, List.takeWhile_append_of_pos (fun ch hch => by rw [List.eq_of_mem_replicate hch]; rfl)]
    cases next with
    | nil => simp
    | cons ch next =>
      have hwhite := (hword ch rfl).1
      simp only [isWhite, Bool.or_eq_false_iff] at hwhite
      rw [List.takeWhile_cons_of_neg (by simp [hwhite]), List.append_nil]
  have hrest := Cursor.rest_skip_spaces hc
  have hcomment : (c.skip k).at? (· == '#') = false := Cursor.at?_eq_false (by
    rw [hrest]
    intro ch hch
    apply beq_false_of_ne
    rintro rfl
    exact hsign hch)
  have hbreak : (c.skip k).at? isBreak = false := Cursor.at?_eq_false (by
    rw [hrest]
    exact fun ch hch => (hword ch hch).2)
  rw [toToken.go]
  simp [hmark, Cursor.skipWhile, htake, hcomment, hbreak]

/-- White space on a line is skipped. -/
lemma toToken_spaces {allowed : Bool} {keys : List PossibleKey} (k : ℕ)
    (hc : c.rest = List.replicate k ' ' ++ next) (hnext : AtToken next)
    (hmark : c.rest.head? ≠ some '\ufeff') :
    (flat c tokens indent outer allowed keys).toToken =
      flat (c.skip k) tokens indent outer allowed keys := by
  rw [toToken, go_spaces _ _ k _ hc hnext hmark]

/-- Behind a line break a key may start. -/
lemma toToken_break {allowed : Bool} {keys : List PossibleKey} (k : ℕ)
    (hc : c.rest = '\n' :: (List.replicate k ' ' ++ next)) (hnext : AtKey next) :
    (flat c tokens indent outer allowed keys).toToken =
      flat (c.skipBreak.skip k) tokens indent outer true keys := by
  obtain ⟨hrest, -, -, -⟩ := skipBreak_cons (.inl rfl) hc
  have hmark : c.at? (· == '\ufeff') = false := Cursor.at?_cons hc
  have hcomment : c.at? (· == '#') = false := Cursor.at?_cons hc
  have hbreak : c.at? isBreak = true := Cursor.at?_cons hc
  have hskip :
      c.skipWhile (fun ch => ch == ' ' || (((0 : ℕ) != 0 || !allowed) && ch == '\t')) = c := by
    simp [Cursor.skipWhile, hc]
  obtain ⟨fuel, hfuel⟩ : ∃ fuel, c.left = fuel + 1 := ⟨c.left - 1, by
    have hleft := c.left_eq
    rw [hc, List.length_cons] at hleft
    omega⟩
  rw [toToken, hfuel, toToken.go]
  simp only [hmark, Bool.false_eq_true, and_false, if_false, hskip, hcomment, hbreak, if_true]
  rw [go_spaces _ _ k _ hrest hnext.atToken (hrest ▸ hnext.no_mark k)]
  simp

lemma unroll_of_le (h : indent ≤ column) (allowed : Bool) (keys : List PossibleKey) :
    (flat c tokens indent outer allowed keys).unroll column =
      flat c tokens indent outer allowed keys := by
  unfold unroll
  cases outer with
  | nil => rfl
  | cons o outer => simp [unroll.close, not_lt.mpr h]

/-- No key is kept that could be too old. -/
lemma dropStale_nil (allowed : Bool) :
    (flat c tokens indent outer allowed []).dropStale =
      some (flat c tokens indent outer allowed []) := by
  simp [dropStale]

lemma dropStale_single (allowed : Bool) {k : PossibleKey} (hstale : isStale c k = false) :
    (flat c tokens indent outer allowed [k]).dropStale =
      some (flat c tokens indent outer allowed [k]) := by
  simp [dropStale, hstale]

/-- The scanner is about to read a token that may be a key.  No older key is kept, since each one
has had its colon. -/
def Ready (s : Scanner) (column : ℕ) (indent : ℤ) (outer : List ℤ) (tokens : List Token)
    (next : List Char) : Prop :=
  ∃ c, s.settle = some (flat c tokens indent outer true []) ∧ c.rest = next ∧ c.column = column

/-! ## Plain scalars -/

/-- The marks that no plain scalar starts with. -/
def leadingMarks : List Char := ",[]\x7b\x7d#&*!|>'\"%@`".toList

/-- A plain scalar may start here. -/
structure StartsWord (ch : Char) (rest : List Char) : Prop where
  inWord : isWhite ch = false ∧ isBreak ch = false
  unmarked : ch ∉ leadingMarks
  going : ch ∈ ['-', '?', ':'] → endsWord rest = false

lemma not_startsWithAny (h : endsWord rest = false) : startsWithAny [' ', '\t'] rest = false := by
  cases rest with
  | nil => rfl
  | cons ch rest =>
    rw [endsWord, Bool.or_eq_false_iff, isWhite, Bool.or_eq_false_iff] at h
    simpa [startsWithAny] using h.1

lemma StartsWord.startsPlain {ch : Char} (h : StartsWord ch rest) :
    startsPlain false (ch :: rest) = true := by
  have hmarks : ",[]\x7b\x7d#&*!|>'\"%@`".toList.contains ch = false := by
    rw [List.contains_eq_mem]
    exact decide_eq_false h.unmarked
  unfold Scanner.startsPlain
  dsimp only
  rw [hmarks, h.inWord.1, h.inWord.2]
  by_cases hgoing : ch ∈ ['-', '?', ':']
  · have hends := h.going hgoing
    rw [not_startsWithAny hends, hends]
    split_ifs <;> rfl
  · rw [if_neg (by simpa using hgoing)]
    rfl

/-- Where a plain scalar starts, it is read. -/
lemma read_plain {ch : Char} {allowed : Bool} {keys : List PossibleKey} (h : StartsWord ch rest)
    (hc : c.rest = ch :: rest) (hmarker : c.atMarker = false) :
    (flat c tokens indent outer allowed keys).read = do
      let s ← (flat c tokens indent outer allowed keys).saveKey
      let p ← plain false (s.indent + 1).toNat c
      return s.scalar .plain (p.text, p.after) p.broken := by
  have hne : ∀ {d : Char}, d ∈ leadingMarks → ch ≠ d := fun hd heq => h.unmarked (heq ▸ hd)
  have hgoing : ∀ {d : Char}, d ∈ ['-', '?', ':'] → ¬ (ch = d ∧ endsWord rest = true) := by
    rintro d hd ⟨rfl, hends⟩
    rw [h.going hd] at hends
    cases hends
  have hstarts := h.startsPlain
  rw [← hc] at hstarts
  unfold read
  dsimp only
  rw [hc] at hstarts ⊢
  have hflow : ((0 : ℕ) != 0) = false := rfl
  simp only [hflow, Bool.false_eq_true, false_or, not_false_eq_true, and_true]
  rw [if_neg fun hd => hne (d := '%') (by decide) hd.2, hmarker, if_neg Bool.false_ne_true,
    if_neg (not_or.mpr ⟨hne (by decide), hne (by decide)⟩),
    if_neg (not_or.mpr ⟨hne (by decide), hne (by decide)⟩), if_neg (hne (by decide)),
    if_neg (hgoing (by decide)), if_neg (hgoing (by decide)), if_neg (hgoing (by decide)),
    if_neg (not_or.mpr ⟨hne (by decide), hne (by decide)⟩), if_neg (hne (by decide)),
    if_neg (not_or.mpr ⟨hne (by decide), hne (by decide)⟩),
    if_neg (not_or.mpr ⟨hne (by decide), hne (by decide)⟩), if_pos hstarts]

/-! ## Keys -/

lemma octetCount_word (h : ∀ ch ∈ key, IsWordChar ch) : octetCount key = key.length := by
  induction key with
  | nil => rfl
  | cons ch key ih =>
    have hsize : ch.utf8Size = 1 := (h ch List.mem_cons_self).utf8Size_eq
    rw [← List.singleton_append, Cursor.octetCount_append,
      ih fun d hd => h d (List.mem_cons_of_mem _ hd)]
    simp [octetCount, hsize, Nat.add_comm]

/-- The possible key at a cursor. -/
def keyAt (c : Cursor) (tokens : List Token) (indent : ℤ) : PossibleKey :=
  ⟨0, indent = c.column, tokens.length, c.offset, c.line, c.column⟩

lemma startsWord_of_isAlpha {ch : Char} (h : ch.isAlpha = true) (rest : List Char) :
    StartsWord ch rest := by
  have hne : ∀ {l : List Char}, l.all (fun d => !d.isAlpha) = true → ch ∉ l := by
    intro l hl hmem
    have hnot := List.all_eq_true.mp hl ch hmem
    rw [h] at hnot
    cases hnot
  exact ⟨IsWordChar.inWord (.inl (by simp [Char.isAlphanum, h])), hne (by decide), fun hmem =>
    absurd hmem (hne (by decide))⟩

/-- A key is read as a scalar that is kept. -/
lemma read_key (hkey : IsKey key) (hc : c.rest = key ++ ':' :: rest)
    (hrest : endsWord rest = true) : (flat c tokens indent outer true []).read =
      some (flat (c.skip key.length) (tokens ++ [.scalar .plain key]) indent outer false
        [keyAt c tokens indent]) := by
  have hplain : plain false (indent + 1).toNat c = _ := plain_key hkey hc hrest
  have hmarker := hkey.atMarker_eq_false hc
  obtain ⟨ch, key, rfl⟩ := List.exists_cons_of_ne_nil hkey.ne_nil
  have halpha := hkey.head ch rfl
  rw [read_plain (startsWord_of_isAlpha halpha _) hc hmarker]
  simp [saveKey, removeKey, splitKey, hplain, scalar, push, keyAt]

/-- A token that is put in a place moves the ones from there on. -/
lemma insertIdx_length (ts ts' : List Token) (t : Token) :
    (ts ++ ts').toArray.insertIdxIfInBounds ts.length t = (ts ++ t :: ts').toArray := by
  have hlist : (ts ++ ts').insertIdx ts.length t = ts ++ t :: ts' := by
    induction ts with
    | nil => rfl
    | cons d ts ih => rw [List.cons_append, List.length_cons, List.insertIdx_succ_cons, ih,
      List.cons_append]
  simp [Array.insertIdxIfInBounds, hlist]

/-- What opens a mapping at a column: nothing if there is one. -/
def opening (indent : ℤ) (column : ℕ) :
    List Token := if indent < column then [.blockMappingStart] else []

/-- The columns around a mapping that is opened, or is open already. -/
def around (indent : ℤ) (outer : List ℤ) (column : ℕ) : List ℤ :=
  if indent < column then indent :: outer else outer

/-- The colon makes a key of the scalar before it. -/
lemma read_colon {k : Cursor} {t : Token} (hc : c.rest = ':' :: rest) (hrest : endsWord rest = true)
    (hcolumn : 0 < c.column) (hindent : indent ≤ k.column) :
    (flat c (tokens ++ [t]) indent outer false [keyAt k tokens indent]).read =
      some (flat (c.skip 1) (tokens ++ (opening indent k.column ++ [.key, t, .value])) k.column
        (around indent outer k.column) false []) := by
  have hmarker := Cursor.atMarker_eq_false hcolumn
  have hvalue : (flat c (tokens ++ [t]) indent outer false [keyAt k tokens indent]).read =
      (flat c (tokens ++ [t]) indent outer false [keyAt k tokens indent]).value := by
    unfold read
    dsimp only
    rw [hc]
    simp [hmarker, hrest]
  rw [hvalue]
  unfold value splitKey roll opening around
  simp only [keyAt, if_true, insertIdx_length, true_and]
  split_ifs with h
  · simp [mark, push]
  · rw [le_antisymm hindent (not_lt.mp h)]
    simp [mark, push]

/-- Behind a key its colon is next, and the key is too short to be dropped. -/
lemma settle_colon (hkey : IsKey key) (hc : c.rest = key ++ ':' :: rest)
    (hindent : indent ≤ c.column) :
    (flat (c.skip key.length) (tokens ++ [.scalar .plain key]) indent outer false
      [keyAt c tokens indent]).settle =
    some (flat (c.skip key.length) (tokens ++ [.scalar .plain key]) indent outer false
      [keyAt c tokens indent]) := by
  have hcolon := Cursor.rest_skip_append hc
  have hstale : isStale (c.skip key.length) (keyAt c tokens indent) = false := by
    have hlength := hkey.length_le
    have htake : c.rest.take key.length = key := by rw [hc, List.take_left]
    have hoffset := c.offset_skip key.length
    rw [htake, octetCount_word hkey.chars] at hoffset
    simp [isStale, keyAt, hoffset]
    omega
  rw [settle, toToken_spaces 0 (by simpa using hcolon) ⟨atWord_cons rfl rfl, by simp⟩
    (by rw [hcolon]; simp), Cursor.skip_zero, dropStale_single _ hstale]
  exact congrArg some (unroll_of_le (by simp; omega) _ _)

/-- The scanner is behind a key and its colon. -/
def Behind (s : Scanner) (column : ℕ) (outer : List ℤ) (tokens : List Token) (rest : List Char) :
    Prop :=
  ∃ c, s = flat c tokens column outer false [] ∧ c.rest = rest ∧ column < c.column

/-- **Keys.**  A key and its colon are two steps, and the second one finds that it was a key. -/
lemma reads_key {s : Scanner} (hs : Ready s column indent outer tokens (key ++ ':' :: rest))
    (hkey : IsKey key) (hrest : endsWord rest = true) (hindent : indent ≤ column) :
    ∃ s', Reads 2 s s' ∧ Behind s' column (around indent outer column)
      (tokens ++ (opening indent column ++ [.key, .scalar .plain key, .value])) rest := by
  obtain ⟨c, hsettle, hc, rfl⟩ := hs
  have hread : (flat c tokens indent outer true []).read = _ := read_key hkey hc hrest
  have hcolon := Cursor.rest_skip_append hc
  have hpositive := List.length_pos_iff.mpr hkey.ne_nil
  have hvalue : (flat (c.skip key.length) (tokens ++ [.scalar .plain key]) indent outer false
      [keyAt c tokens indent]).read = _ :=
    read_colon hcolon hrest (by rw [Cursor.column_skip]; omega) hindent
  refine ⟨_, .step hsettle hread (by simp)
    (.single (settle_colon hkey hc hindent) hvalue (by simp)), _, rfl, ?_, ?_⟩
  · rw [Cursor.rest_skip, hcolon]
    rfl
  · rw [Cursor.column_skip, Cursor.column_skip]
    omega

/-! ## Values on the line of their key -/

lemma ready_flat (hc : c.rest = next) (hcolumn : c.column = column) (hnext : AtKey next)
    (hindent : indent ≤ column) : Ready (flat c tokens indent outer true []) column indent outer
      tokens next := by
  subst hc hcolumn
  refine ⟨c, ?_, rfl, rfl⟩
  rw [settle, toToken_spaces 0 rfl hnext.atToken (hnext.no_mark 0), Cursor.skip_zero, dropStale_nil]
  exact congrArg some (unroll_of_le hindent _ _)

/-- The next line is not indented less than this one. -/
lemma ready_break {allowed : Bool} (k : ℕ) (hc : c.rest = '\n' :: (List.replicate k ' ' ++ next))
    (hnext : AtKey next) (hindent : indent ≤ k) :
    Ready (flat c tokens indent outer allowed []) k indent outer tokens next := by
  obtain ⟨hrest, hcolumn, -, -⟩ := skipBreak_cons (.inl rfl) hc
  refine ⟨c.skipBreak.skip k, ?_, Cursor.rest_skip_spaces hrest,
    by rw [Cursor.column_skip, hcolumn, Nat.zero_add]⟩
  rw [settle, toToken_break k hc hnext, dropStale_nil]
  exact congrArg some (unroll_of_le (by simp [hcolumn, hindent]) _ _)

/-- A line to the left of a group closes it. -/
lemma ready_closed {o : ℤ} (hc : c.rest = next) (hcolumn : c.column = column) (hnext : AtKey next)
    (hindent : (column : ℤ) < indent) (ho : o ≤ column) :
    Ready (flat c tokens indent (o :: outer) true []) column o outer (tokens ++ [.blockEnd])
      next := by
  subst hc hcolumn
  refine ⟨c, ?_, rfl, rfl⟩
  have hclosed : (flat c tokens indent (o :: outer) true []).unroll c.column =
      flat c (tokens ++ [.blockEnd]) o outer true [] := by
    cases outer <;> simp [unroll, unroll.close, hindent, not_lt.mpr ho]
  rw [settle, toToken_spaces 0 rfl hnext.atToken (hnext.no_mark 0), Cursor.skip_zero, dropStale_nil]
  exact congrArg some hclosed

/-- The space before a value is skipped. -/
lemma settle_space (hc : c.rest = ' ' :: rest) (hrest : AtToken rest)
    (hcolumn : column < c.column) :
    (flat c tokens column outer false []).settle =
      some (flat (c.skip 1) tokens column outer false []) := by
  rw [settle, toToken_spaces 1 hc hrest (by simp [hc]), dropStale_nil]
  exact congrArg some (unroll_of_le (by simp; omega) _ _)

lemma startsWord_of_plain {ch : Char} (h : Plain (ch :: text)) (rest : List Char) :
    StartsWord ch (text ++ '\n' :: rest) := by
  have hplace : isIndicator ⟨([] : List Char).getLast?, ch, text.head?⟩ = false := h.place rfl
  have hspace : ch ≠ ' ' := fun heq => h.head (by rw [heq]; rfl)
  have hends : isGap text.head? = false → endsWord (text ++ '\n' :: rest) = false := by
    intro hgap
    cases text with
    | nil => cases hgap
    | cons d text =>
      simp only [isGap, List.head?_cons, Option.all_some, Bool.or_eq_false_iff] at hgap
      rw [List.cons_append, endsWord, hgap.1.1, hgap.1.2]
      rfl
  simp only [isIndicator, List.getLast?_nil, Option.isNone_none, Bool.true_and,
    Bool.or_eq_false_iff, List.contains_eq_mem, decide_eq_false_iff_not] at hplace
  obtain ⟨⟨⟨hmarks, hdash⟩, hcolon⟩, -⟩ := hplace
  refine ⟨h.atWord (List.nil_append (ch :: text)).symm hspace, fun hmem => hmarks ?_,
    fun hmem => hends ?_⟩
  · have hall :
        leadingMarks.all (fun d => "#,[]\x7b\x7d&*!|>'\"%@`".toList.contains d) = true := by decide
    simpa using List.all_eq_true.mp hall ch hmem
  · rcases List.mem_cons.mp hmem with rfl | hmem
    · simpa using hdash
    · rcases List.mem_cons.mp hmem with rfl | hmem
      · simpa using hdash
      · rw [List.mem_singleton.mp hmem] at hcolon
        simpa using hcolon

/-- A plain value, and the indentation of the next line. -/
lemma reads_plain {s : Scanner} {k : ℕ}
    (hs : Behind s column outer tokens (' ' :: (text ++ '\n' :: (List.replicate k ' ' ++ next))))
    (htext : Plain text) (hk : k ≤ column) (hnext : AtKey next) :
    ∃ c, Reads 1 s (flat c (tokens ++ [.scalar .plain text]) column outer true []) ∧
      c.rest = next ∧ c.column = k := by
  obtain ⟨c, rfl, hc, hcolumn⟩ := hs
  have hrest : (c.skip 1).rest = text ++ '\n' :: (List.replicate k ' ' ++ next) := by
    rw [Cursor.rest_skip, hc]
    rfl
  have hmargin : ((column : ℤ) + 1).toNat = column + 1 := by omega
  obtain ⟨c', hplain, hrest', hcolumn'⟩ :=
    htext.plain_eq hrest hnext.atToken.1 (Nat.lt_succ_of_le hk) (by simp; omega)
  obtain ⟨ch, text, rfl⟩ := List.exists_cons_of_ne_nil htext.ne_nil
  have hstart := startsWord_of_plain htext (List.replicate k ' ' ++ next)
  have hword : AtWord (ch :: text ++ '\n' :: (List.replicate k ' ' ++ next)) :=
    atWord_cons hstart.inWord.1 hstart.inWord.2
  -- A plain scalar takes the break behind it along, so that a key may follow at once.
  refine ⟨c', .single (settle_space hc ⟨hword, ?_⟩ hcolumn) ?_ (by simp), hrest', hcolumn'⟩
  · intro hsign
    rw [List.cons_append, List.head?_cons, Option.some.injEq] at hsign
    exact hstart.unmarked (hsign ▸ by decide)
  · rw [read_plain hstart hrest (Cursor.atMarker_eq_false (by simp))]
    simp [saveKey, hmargin, hplain, scalar, push]

/-- A value in quotes. -/
lemma reads_quoted {s : Scanner} {written : List Char} (double : Bool)
    (hs : Behind s 0 outer tokens (' ' :: (written ++ '\n' :: next)))
    (hstart : ∃ more, written = quoteOf double :: more)
    (hread : ∀ {c : Cursor}, c.rest = written ++ '\n' :: next →
      ∃ c', quoted double c = some (text, c') ∧ c'.rest = '\n' :: next)
    (hnext : AtKey next) :
    ∃ s', Reads 1 s s' ∧ Ready s' 0 0 outer
      (tokens ++ [.scalar (if double then .doubleQuoted else .singleQuoted) text]) next := by
  obtain ⟨c, rfl, hc, hcolumn⟩ := hs
  have hrest : (c.skip 1).rest = written ++ '\n' :: next := by
    rw [Cursor.rest_skip, hc]
    rfl
  obtain ⟨c', htext, hrest'⟩ := hread hrest
  obtain ⟨more, rfl⟩ := hstart
  have htoken : AtToken (quoteOf double :: more ++ '\n' :: next) := by
    cases double <;> exact ⟨atWord_cons rfl rfl, by simp [quoteOf]⟩
  have hmarker : (c.skip 1).atMarker = false := Cursor.atMarker_eq_false (by simp)
  refine ⟨flat c' (tokens ++ [.scalar (if double then .doubleQuoted else .singleQuoted) text])
    0 outer false [], .single (settle_space hc htoken hcolumn) ?_ (by simp),
    ready_break 0 hrest' hnext le_rfl⟩
  unfold read
  dsimp only
  rw [hrest]
  cases double <;> simp [quoteOf, hmarker, saveKey, htext, scalar, push]

/-- A value that is a block. -/
lemma reads_block {s : Scanner} (h : admitsBlock text = true)
    (hs : Behind s 0 outer tokens (' ' :: (literalBlock 2 text ++ (ending text ++ next))))
    (hnext : AtKey next) :
    ∃ s', Reads 1 s s' ∧ Ready s' 0 0 outer (tokens ++ [.scalar .literal text]) next := by
  obtain ⟨c, rfl, hc, hcolumn⟩ := hs
  have hrest : (c.skip 1).rest = literalBlock 2 text ++ (ending text ++ next) := by
    rw [Cursor.rest_skip, hc]
    rfl
  obtain ⟨c', htext, hnext', hcolumn'⟩ := block_literalBlock h hrest hnext.atToken.1
  rw [literalBlock_append] at hc hrest
  have hmarker : (c.skip 1).atMarker = false := Cursor.atMarker_eq_false (by simp)
  refine ⟨flat c' (tokens ++ [.scalar .literal text]) 0 outer true [],
    .single (settle_space hc ⟨atWord_cons rfl rfl, by simp⟩ hcolumn) ?_ (by simp),
    ready_flat hnext' hcolumn' hnext le_rfl⟩
  unfold read
  dsimp only
  rw [hrest]
  simp [hmarker, removeKey, splitKey, htext, scalar, push]

end Scanner

/-! ## Texts -/

/-- The style that a text is written in. -/
def styleOf (text : List Char) : Style :=
  if text.contains '\n' then if admitsBlock text then .literal else .doubleQuoted
  else if !isAmbiguous text && admitsPlain text then .plain
  else if admitsSingle text then .singleQuoted
  else .doubleQuoted

namespace Scanner

lemma reads_doubleQuoted {s : Scanner}
    (hs : Behind s 0 outer tokens (' ' :: ((doubleQuoted text ++ ['\n']) ++ next)))
    (hnext : AtKey next) :
    ∃ s', Reads 1 s s' ∧ Ready s' 0 0 outer (tokens ++ [.scalar .doubleQuoted text]) next := by
  rw [List.append_assoc] at hs
  exact reads_quoted true hs ⟨_, rfl⟩ quoted_doubleQuoted hnext

/-- **Texts.**  Every text is read back in the style that it is written in. -/
lemma reads_text {s : Scanner} (hs : Behind s 0 outer tokens (' ' :: (textValue 2 text ++ next)))
    (hnext : AtKey next) :
    ∃ s', Reads 1 s s' ∧ Ready s' 0 0 outer (tokens ++ [.scalar (styleOf text) text]) next := by
  unfold textValue at hs
  unfold styleOf
  by_cases hfeed : text.contains '\n' = true
  · rw [if_pos hfeed] at hs ⊢
    by_cases hblock : admitsBlock text = true
    · rw [if_pos hblock, List.append_assoc] at hs
      rw [if_pos hblock]
      exact reads_block hblock hs hnext
    · rw [if_neg hblock] at hs ⊢
      exact reads_doubleQuoted hs hnext
  · rw [if_neg hfeed] at hs ⊢
    have hfeed' : '\n' ∉ text := by simpa using hfeed
    by_cases hplain : (!isAmbiguous text && admitsPlain text) = true
    · rw [if_pos hplain, List.append_assoc] at hs
      rw [if_pos hplain]
      rw [Bool.and_eq_true, Bool.not_eq_true'] at hplain
      have hne : text ≠ [] := by
        rintro rfl
        revert hplain
        decide
      obtain ⟨c, hreads, hc, hcolumn⟩ :=
        reads_plain (k := 0) hs (plain_of_admitsPlain hne hplain.2) le_rfl hnext
      exact ⟨_, hreads, ready_flat hc hcolumn hnext le_rfl⟩
    · rw [if_neg hplain] at hs ⊢
      by_cases hsingle : admitsSingle text = true
      · rw [if_pos hsingle, List.append_assoc] at hs
        rw [if_pos hsingle]
        exact reads_quoted false hs ⟨_, rfl⟩ (quoted_singleQuoted hsingle hfeed') hnext
      · rw [if_neg hsingle] at hs ⊢
        exact reads_doubleQuoted hs hnext

end Scanner

end Arbor.Document
