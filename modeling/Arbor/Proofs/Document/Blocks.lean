import Arbor.Proofs.Document.Quoted

/-!
# Literal blocks

A text of several lines is written as a block, each line behind two spaces.  The reader takes line
after line and the breaks between them; what it makes of the breaks at the end is told by the
chomping, which the writer chooses so that the text is read back (`block_literalBlock`).
-/

namespace Arbor.Document

open Scalar

variable {c : Cursor} {text left line next : List Char} {fuel deepest : ℕ} {breaks bs : List Char}

/-! ## Indentation -/

/-- A block goes on with a line behind two spaces. -/
lemma blockMargin_line (hc : c.rest = List.replicate 2 ' ' ++ left) (hcolumn : c.column = 0)
    (hleft : ∀ ch ∈ left.head?, isBreak ch = false) :
    blockMargin 0 (fuel + 1) 2 deepest breaks c = some (2, breaks, c.skip 2) := by
  have hrest := Cursor.rest_skip_spaces hc
  have hat : (c.skip 2).at? isBreak = false := Cursor.at?_eq_false (by rwa [hrest])
  have hspaces : min (c.rest.takeWhile (· == ' ')).length 2 = 2 := by
    rw [hc, Nat.min_eq_right]
    simp
  rw [blockMargin]
  simp [hcolumn, hspaces, hat]

lemma AtWord.takeWhile_eq_nil (hnext : AtWord next) : next.takeWhile (· == ' ') = [] := by
  cases next with
  | nil => rfl
  | cons ch next =>
    rw [List.takeWhile_cons_of_neg]
    rw [beq_iff_eq]
    rintro rfl
    cases (hnext ' ' rfl).1

/-- A block ends before a line that is not indented. -/
lemma blockMargin_end (hc : c.rest = next) (hcolumn : c.column = 0) (hnext : AtWord next) :
    blockMargin 0 (fuel + 1) 2 deepest breaks c = some (2, breaks, c) := by
  subst hc
  have hat : c.at? isBreak = false := Cursor.at?_eq_false fun ch hch => (hnext ch hch).2
  have htab : c.at? (· == '\t') = false := by
    apply Cursor.at?_eq_false
    intro ch hch
    apply beq_false_of_ne
    rintro rfl
    cases (hnext '\t' hch).1
  rw [blockMargin]
  simp [hcolumn, hnext.takeWhile_eq_nil, hat, htab]

/-- The line break that ends the last line of a block, where the text has none. -/
def ending (text : List Char) : List Char := if text.getLast?.any isBreak then [] else ['\n']

lemma ending_of_inline (h : ∀ ch ∈ text, isBreak ch = false) : ending text = ['\n'] := by
  rw [ending, if_neg]
  cases hlast : text.getLast? with
  | none => simp
  | some ch => simp [h ch (List.mem_of_getLast? hlast)]

lemma ending_append (text : List Char) (hne : left ≠ []) : ending (text ++ left) = ending left := by
  rw [ending, ending, List.getLast?_append, List.getLast?_eq_some_getLast hne, Option.some_or]

lemma getLast?_any_isBreak (text : List Char) (h : ∀ ch ∈ bs, isBreak ch = true) (hne : bs ≠ []) :
    (text ++ bs).getLast?.any isBreak = true := by
  rw [List.getLast?_append, List.getLast?_eq_some_getLast hne, Option.some_or]
  exact h _ (List.getLast_mem hne)

lemma ending_breaks (h : ∀ ch ∈ bs, isBreak ch = true) (hne : bs ≠ []) : ending bs = [] :=
  if_pos (getLast?_any_isBreak [] h hne)

/-- A line of a block goes on from here. -/
def blockRest (left next : List Char) : List Char :=
  indented 2 false left ++ (ending left ++ next)

lemma head_blockRest (hne : left ≠ []) (hleft : ∀ ch ∈ left.head?, isBreak ch = false) :
    ∀ ch ∈ (blockRest left next).head?, isBreak ch = false := by
  obtain ⟨ch, left, rfl⟩ := List.exists_cons_of_ne_nil hne
  have hch := hleft ch rfl
  rw [blockRest, indented, hch]
  rintro d ⟨⟩
  exact hch

/-- Line breaks in a block, up to the next line or to the end. -/
lemma blockMargin_breaks (fuel deepest : ℕ) (breaks : List Char) (hbs : ∀ ch ∈ bs, IsPlainBreak ch)
    (hc : c.rest = bs ++ if left = [] then next else List.replicate 2 ' ' ++ blockRest left next)
    (hcolumn : c.column = 0) (hleft : ∀ ch ∈ left.head?, isBreak ch = false) (hnext : AtWord next)
    (hfuel : bs.length < fuel) :
    ∃ c', blockMargin 0 fuel 2 deepest breaks c = some (2, bs.reverse ++ breaks, c') ∧
      c'.rest = (if left = [] then next else blockRest left next) ∧
      c'.column = if left = [] then 0 else 2 := by
  induction bs generalizing fuel breaks deepest c with
  | nil =>
    obtain ⟨fuel, rfl⟩ : ∃ m, fuel = m + 1 := ⟨fuel - 1, by omega⟩
    rw [List.nil_append] at hc
    split_ifs at hc ⊢ with hempty
    · exact ⟨c, blockMargin_end hc hcolumn hnext, hc, hcolumn⟩
    · refine ⟨c.skip 2, blockMargin_line hc hcolumn ?_, Cursor.rest_skip_spaces hc, ?_⟩
      · exact head_blockRest hempty hleft
      · rw [Cursor.column_skip, hcolumn]
  | cons ch bs ih =>
    obtain ⟨fuel, rfl⟩ : ∃ m, fuel = m + 1 := ⟨fuel - 1, by omega⟩
    have hb := hbs ch List.mem_cons_self
    have hbreak := isBreak_of_isPlainBreak hb
    obtain ⟨hskip, hcolumn', -, htext⟩ := skipBreak_cons hb hc
    have hat : c.at? isBreak = true := (Cursor.at?_cons hc).trans hbreak
    have htab : c.at? (· == '\t') = false := by
      rw [Cursor.at?_cons hc]
      rcases hb with rfl | rfl | rfl <;> rfl
    have hspaces : c.rest.takeWhile (· == ' ') = [] := by
      rw [hc, List.cons_append, List.takeWhile_cons_of_neg]
      rcases hb with rfl | rfl | rfl <;> decide
    obtain ⟨c', hread, hc', hcolumn''⟩ := ih fuel deepest (ch :: breaks)
      (fun d hd => hbs d (List.mem_cons_of_mem _ hd)) hskip hcolumn' (by simpa using hfuel)
    refine ⟨c', ?_, hc', hcolumn''⟩
    rw [blockMargin]
    simp [hcolumn, hspaces, hat, htab, htext, hread]

/-! ## Lines -/

/-- A text that starts with a line, the break behind it and further ones. -/
structure FirstLine (text line : List Char) (last : Char) (more left : List Char) : Prop where
  eq : text ++ ending text = line ++ last :: (more ++ if left = [] then [] else left ++ ending left)
  written : ∀ next, blockRest text next = line ++ last :: (more ++
    if left = [] then next else List.replicate 2 ' ' ++ blockRest left next)
  line_ne_nil : line ≠ []
  line_inline : ∀ ch ∈ line, isBreak ch = false
  breaks : ∀ ch ∈ last :: more, IsPlainBreak ch
  left_head : ∀ ch ∈ left.head?, isBreak ch = false
  left_suffix : ∃ before, before ≠ [] ∧ text = before ++ left

/-- A text of one line, which the writer ends with a line feed. -/
lemma firstLine_of_inline (h : ∀ ch ∈ line, isBreak ch = false) (hne : line ≠ []) :
    FirstLine line line '\n' [] [] where
  eq := by
    rw [ending_of_inline h]
    rfl
  written next := by
    have hself := indented_word 2 [] h
    rw [List.append_nil] at hself
    rw [blockRest, ending_of_inline h, hself]
    simp [indented]
  line_ne_nil := hne
  line_inline := h
  breaks := by simp [IsPlainBreak]
  left_head := by simp
  left_suffix := ⟨line, hne, (List.append_nil _).symm⟩

/-- A line, the line breaks behind it, and what is left behind those. -/
lemma firstLine_append {last : Char} {more : List Char} (h : ∀ ch ∈ line, isBreak ch = false)
    (hne : line ≠ []) (hmore : ∀ ch ∈ last :: more, IsPlainBreak ch)
    (hleft : ∀ ch ∈ left.head?, isBreak ch = false) :
    FirstLine (line ++ (last :: more ++ left)) line last more left where
  eq := by
    have hbreaks : ∀ ch ∈ last :: more, isBreak ch = true := fun ch hch =>
      isBreak_of_isPlainBreak (hmore ch hch)
    rw [ending_append _ (by simp)]
    split_ifs with hempty
    · rw [hempty, List.append_nil, ending_breaks hbreaks (List.cons_ne_nil _ _)]
      simp
    · rw [ending_append _ hempty]
      simp
  written next := by
    have hbreaks : ∀ ch ∈ last :: more, isBreak ch = true := fun ch hch =>
      isBreak_of_isPlainBreak (hmore ch hch)
    rw [blockRest, indented_word _ _ h, indented_breaks hbreaks (List.cons_ne_nil _ _),
      ending_append _ (by simp)]
    split_ifs with hempty
    · rw [hempty, List.append_nil, ending_breaks hbreaks (List.cons_ne_nil _ _), indented]
      simp
    · rw [indented_true hleft hempty, ending_append _ hempty, blockRest]
      simp
  line_ne_nil := hne
  line_inline := h
  breaks := hmore
  left_head := hleft
  left_suffix := ⟨line ++ (last :: more), by simp [hne], (List.append_assoc _ _ _).symm⟩

lemma exists_firstLine (hne : text ≠ []) (hhead : ∀ ch ∈ text.head?, isBreak ch = false)
    (hbreaks : ∀ ch ∈ text, isBreak ch = true → IsPlainBreak ch) :
    ∃ line last more left, FirstLine text line last more left := by
  obtain ⟨ch, text, rfl⟩ := List.exists_cons_of_ne_nil hne
  obtain ⟨line, after, rfl, hline, hafter⟩ :=
    exists_span_cons (fun ch => !isBreak ch) (by simpa using hhead ch rfl) text
  have hinline : ∀ d ∈ ch :: line, isBreak d = false := fun d hd => by simpa using hline d hd
  cases after with
  | nil =>
    rw [List.append_nil]
    exact ⟨_, _, _, _, firstLine_of_inline hinline (List.cons_ne_nil _ _)⟩
  | cons last after =>
    obtain ⟨more, left, rfl, hmore, hleft⟩ :=
      exists_span_cons isBreak (by simpa using hafter last rfl) after
    have hplain : ∀ d ∈ last :: more, IsPlainBreak d := fun d hd => by
      refine hbreaks d ?_ (hmore d hd)
      rw [List.mem_cons] at hd
      simp only [List.mem_cons, List.mem_append]
      tauto
    exact ⟨_, _, _, _, firstLine_append hinline (List.cons_ne_nil _ _) hplain hleft⟩

/-- A block as its lines up to the last one, the break behind it, and further breaks. -/
structure Lines (text core : List Char) (last : Char) (more : List Char) : Prop where
  eq : text ++ ending text = core ++ last :: more
  core_ne_nil : core ≠ []
  core_last : ∀ ch ∈ core.getLast?, isBreak ch = false
  breaks : ∀ ch ∈ last :: more, isBreak ch = true

namespace FirstLine

variable {last : Char} {more : List Char} (h : FirstLine text line last more left)

include h

lemma length_lt : left.length < text.length := by
  obtain ⟨before, hbefore, rfl⟩ := h.left_suffix
  rw [List.length_append]
  exact Nat.lt_add_of_pos_left (List.length_pos_iff.mpr hbefore)

/-- The only line of a block. -/
lemma lines (hempty : left = []) : Lines text line last more where
  eq := by
    rw [h.eq, if_pos hempty, List.append_nil]
  core_ne_nil := h.line_ne_nil
  core_last ch hch := h.line_inline ch (List.mem_of_getLast? hch)
  breaks ch hch := isBreak_of_isPlainBreak (h.breaks ch hch)

/-- A line in front of the lines of a block. -/
lemma lines_append {core more' : List Char} {last' : Char} (hne : left ≠ [])
    (hlines : Lines left core last' more') :
    Lines text (line ++ last :: (more ++ core)) last' more' where
  eq := by
    rw [h.eq, if_neg hne, hlines.eq]
    simp
  core_ne_nil := by simp
  core_last := by
    have happend : line ++ last :: (more ++ core) = (line ++ last :: more) ++ core := by simp
    rw [happend, List.getLast?_append, List.getLast?_eq_some_getLast hlines.core_ne_nil,
      Option.some_or, ← List.getLast?_eq_some_getLast]
    exact hlines.core_last
  breaks := hlines.breaks

end FirstLine

/-- One line of a block and the breaks behind it. -/
lemma blockLines_line {c' : Cursor} {last : Char} {more rest : List Char} {i : ℕ}
    (acc leading breaks : List Char) (blank : Bool)
    (hline : ∀ ch ∈ line, isBreak ch = false) (hlast : IsPlainBreak last)
    (hc : c.rest = line ++ last :: rest) (hcolumn : c.column = 2)
    (hmargin : blockMargin 0 ((c.skip line.length).left + 1) 2 0 [] (c.skip line.length).skipBreak =
      some (i, more, c')) :
    blockLines true 0 2 (fuel + 1) acc leading breaks blank c =
      blockLines true 0 2 fuel (line.reverse ++ (breaks ++ (leading ++ acc))) [last] more
        (c.at? isWhite) c' := by
  have hrest := Cursor.rest_skip_append hc
  obtain ⟨-, -, -, htext⟩ := skipBreak_cons hlast hrest
  have hbreak := isBreak_of_isPlainBreak hlast
  have htake : c.rest.takeWhile (fun ch => !isBreak ch) = line := by
    rw [hc, List.takeWhile_append_of_pos (by simpa using hline),
      List.takeWhile_cons_of_neg (by simp [hbreak]), List.append_nil]
  have hne : c.rest.isEmpty = false := by
    rw [hc]
    cases line <;> rfl
  rw [blockLines]
  simp [hcolumn, hne, htake, htext, hmargin]

/-- From the first character of a line on, the reader takes all lines of the block. -/
lemma blockLines_eq (fuel : ℕ) (acc leading breaks : List Char) (blank : Bool) (hne : text ≠ [])
    (hhead : ∀ ch ∈ text.head?, isBreak ch = false)
    (hbreaks : ∀ ch ∈ text, isBreak ch = true → IsPlainBreak ch) (hc : c.rest = blockRest text next)
    (hcolumn : c.column = 2) (hnext : AtWord next) (hfuel : text.length < fuel) :
    ∃ core last more c', Lines text core last more ∧
      blockLines true 0 2 fuel acc leading breaks blank c =
        some (core.reverse ++ (breaks ++ (leading ++ acc)), [last], more.reverse, c') ∧
      c'.rest = next ∧ c'.column = 0 := by
  induction fuel generalizing text acc leading breaks blank c with
  | zero => omega
  | succ fuel ih =>
    obtain ⟨line, last, more, left, h⟩ := exists_firstLine hne hhead hbreaks
    rw [h.written] at hc
    have hlast := h.breaks last List.mem_cons_self
    have hskip := Cursor.rest_skip_append hc
    obtain ⟨hrest, hcolumn', -, -⟩ := skipBreak_cons hlast hskip
    have hmore : more.length < (c.skip line.length).left + 1 := by
      rw [Cursor.left_eq, hskip, List.length_cons, List.length_append]
      omega
    obtain ⟨c', hmargin, hrest', hcolumn''⟩ := blockMargin_breaks _ 0 []
      (fun ch hch => h.breaks ch (List.mem_cons_of_mem _ hch)) hrest hcolumn' h.left_head hnext
        hmore
    have hlength := h.length_lt
    rw [blockLines_line acc leading breaks blank h.line_inline hlast hc hcolumn hmargin,
      List.append_nil]
    split_ifs at hrest' hcolumn'' with hempty
    · obtain ⟨fuel, rfl⟩ : ∃ m, fuel = m + 1 := ⟨fuel - 1, by omega⟩
      refine ⟨line, last, more, c', h.lines hempty, ?_, hrest', hcolumn''⟩
      rw [blockLines, if_neg (by omega)]
    · have hleft : ∀ ch ∈ left, isBreak ch = true → IsPlainBreak ch := by
        obtain ⟨before, -, rfl⟩ := h.left_suffix
        exact fun ch hch => hbreaks ch (List.mem_append_right _ hch)
      obtain ⟨core, last', more', c'', hlines, hread, hnext', hcolumn₂⟩ := ih
        (line.reverse ++ (breaks ++ (leading ++ acc))) [last] more.reverse (c.at? isWhite) hempty
        h.left_head hleft hrest' hcolumn'' (by omega)
      refine ⟨_, last', more', c'', h.lines_append hempty hlines, ?_, hnext', hcolumn₂⟩
      rw [hread]
      simp

/-! ## The whole block -/

/-- The indicators of a block. -/
lemma blockHeader_eq {hint chomp rest : List Char} (hhint : hint = ['2'] ∨ hint = [])
    (hchomp : chomp = ['-'] ∨ chomp = ['+'] ∨ chomp = [])
    (hc : c.rest = hint ++ (chomp ++ '\n' :: rest)) :
    ∃ c', blockHeader c =
        some (if chomp = ['-'] then .strip else if chomp = ['+'] then .keep else .clip,
          if hint = ['2'] then 2 else 0, c') ∧
      c'.rest = '\n' :: rest := by
  refine ⟨c.skip (hint.length + chomp.length), ?_, ?_⟩
  · rcases hhint with rfl | rfl <;> rcases hchomp with rfl | rfl | rfl <;>
      simp [blockHeader, hc, chompOf?, Cursor.skip_skip]
  · rw [← Cursor.skip_skip]
    exact Cursor.rest_skip_append (Cursor.rest_skip_append hc)

/-- The chomping that the writer gives to a text. -/
def chompMark (text : List Char) : List Char :=
  if !text.getLast?.any isBreak then ['-']
  else if text.length = 1 ∨ text.dropLast.getLast?.any isBreak then ['+']
  else []

/-- The indentation that the writer gives to a text. -/
def indentHint (text : List Char) : List Char := if text.head?.any isEdge then ['2'] else []

lemma literalBlock_append (text rest : List Char) : literalBlock 2 text ++ rest =
    '|' :: (indentHint text ++ (chompMark text ++ '\n' :: (indented 2 true text ++ rest))) := by
  unfold literalBlock
  simp [chompMark, indentHint]

/-- What the chomping leaves of the break behind the last line and of those of blank lines. -/
def chomped (mark leading breaks : List Char) : List Char :=
  if mark = ['-'] then [] else if mark = ['+'] then breaks ++ leading else leading

/-- The chomping leaves what the text has of the breaks behind its last line. -/
lemma chomped_chompMark (bs : List Char) {core more : List Char} {last : Char}
    (h : Lines left core last more) (hne : left ≠ []) :
    core ++ (chomped (chompMark (bs ++ left)) [last] more.reverse).reverse = left := by
  have hlast : (bs ++ left).getLast? = left.getLast? := by
    rw [List.getLast?_append, List.getLast?_eq_some_getLast hne, Option.some_or]
  -- The last break of a text may be taken away as long as there is one before it.
  have hbreaks : ∀ (before more' : List Char) (ch : Char), more = more' ++ [ch] →
      (before ++ last :: more').getLast?.any isBreak = true := by
    rintro before more' ch rfl
    exact getLast?_any_isBreak before (fun d hd => h.breaks d (List.mem_append_left [ch] hd))
      (List.cons_ne_nil _ _)
  have heq := h.eq
  unfold chompMark
  rw [hlast]
  cases hbreak : left.getLast?.any isBreak with
  | false =>
    rw [ending, hbreak] at heq
    rcases List.eq_nil_or_concat more with rfl | ⟨more, ch, rfl⟩
    · obtain ⟨rfl, -⟩ := List.append_inj' heq rfl
      simp [chomped]
    · -- The break that ends the block is the only one behind its last line.
      rw [List.concat_eq_append, ← List.cons_append, ← List.append_assoc] at heq
      obtain ⟨rfl, -⟩ := List.append_inj' heq rfl
      rw [hbreaks core more ch List.concat_eq_append] at hbreak
      cases hbreak
  | true =>
    rw [ending, hbreak, if_pos rfl, List.append_nil] at heq
    rw [Bool.not_true, if_neg Bool.false_ne_true]
    subst heq
    rcases List.eq_nil_or_concat more with rfl | ⟨more, ch, rfl⟩
    · split_ifs <;> simp_all [chomped]
    · have hdrop : (bs ++ (core ++ last :: more.concat ch)).dropLast =
          (bs ++ core) ++ last :: more := by
        rw [List.concat_eq_append, ← List.cons_append, ← List.append_assoc, ← List.append_assoc,
          List.dropLast_concat]
      rw [hdrop, if_pos (.inr (hbreaks (bs ++ core) more ch List.concat_eq_append))]
      simp [chomped]

lemma chompMark_breaks (h : ∀ ch ∈ bs, isBreak ch = true) (hne : bs ≠ []) :
    chompMark bs = ['+'] := by
  have hlast : bs.getLast?.any isBreak = true := getLast?_any_isBreak [] h hne
  rw [chompMark, hlast, Bool.not_true, if_neg Bool.false_ne_true, if_pos]
  by_cases hdrop : bs.dropLast = []
  · left
    have hlength : bs.dropLast.length = bs.length - 1 := List.length_dropLast
    have hpositive := List.length_pos_iff.mpr hne
    rw [hdrop, List.length_nil] at hlength
    omega
  · right
    exact getLast?_any_isBreak [] (fun ch hch => h ch (List.dropLast_subset _ hch)) hdrop

/-- The indentation of a block is found at its first line. -/
lemma blockMargin_found (hc : c.rest = List.replicate 2 ' ' ++ left) (hcolumn : c.column = 0)
    (hleft : ∀ ch ∈ left.head?, ch ≠ ' ' ∧ isPrintable ch = true ∧ isBreak ch = false) :
    blockMargin 0 (fuel + 1) 0 0 [] c = some (2, [], c.skip 2) := by
  have hrest := Cursor.rest_skip_spaces hc
  have hat : (c.skip 2).at? isBreak = false := Cursor.at?_eq_false (by
    rw [hrest]
    exact fun ch hch => (hleft ch hch).2.2)
  have htab : (c.skip 2).at? (· == '\t') = false := Cursor.at?_eq_false (by
    rw [hrest]
    intro ch hch
    apply beq_false_of_ne
    rintro rfl
    cases (hleft '\t' hch).2.1)
  have hspaces : (c.rest.takeWhile (· == ' ')).length = 2 := by
    rw [hc]
    cases left with
    | nil => rfl
    | cons ch left => simp [List.replicate, (hleft ch rfl).1]
  rw [blockMargin]
  simp [hcolumn, hspaces, hat, htab]

/-- A block as it is written: breaks, then its first line with the indentation. -/
lemma indented_leading (hbs : ∀ ch ∈ bs, isBreak ch = true)
    (hleft : ∀ ch ∈ left.head?, isBreak ch = false) (hne : bs ++ left ≠ []) :
    indented 2 true (bs ++ left) ++ (ending (bs ++ left) ++ next) =
      bs ++ if left = [] then next else List.replicate 2 ' ' ++ blockRest left next := by
  split_ifs with hempty
  · subst hempty
    have hself : indented 2 true (bs ++ []) = bs ++ indented 2 true [] :=
      indented_breaks hbs (by simpa using hne)
    rw [hself, List.append_nil, ending_breaks hbs (by simpa using hne)]
    simp [indented]
  · rw [ending_append _ hempty]
    cases bs with
    | nil => simp [indented_true hleft hempty, blockRest]
    | cons ch bs =>
      rw [indented_breaks hbs (List.cons_ne_nil _ _), indented_true hleft hempty]
      simp [blockRest]

/-- Blank lines and indentation before the first line of a block. -/
lemma blockMargin_first (hbs : ∀ ch ∈ bs, IsPlainBreak ch)
    (hprint : ∀ ch ∈ left, isPrintable ch = true) (hleft : ∀ ch ∈ left.head?, isBreak ch = false)
    (hne : bs ++ left ≠ []) (hc : c.rest =
      indented 2 true (bs ++ left) ++ (ending (bs ++ left) ++ next)) (hcolumn : c.column = 0)
    (hnext : AtWord next) :
    ∃ c', blockMargin 0 (c.left + 1) (if indentHint (bs ++ left) = ['2'] then 2 else 0) 0 [] c =
      some (2, bs.reverse, c') ∧ c'.rest = (if left = [] then next else blockRest left next) ∧
      c'.column = if left = [] then 0 else 2 := by
  rw [indented_leading (fun ch hch => isBreak_of_isPlainBreak (hbs ch hch)) hleft hne] at hc
  unfold indentHint
  cases hedge : (bs ++ left).head?.any isEdge with
  | true =>
    rw [if_pos rfl, if_pos rfl, ← List.append_nil bs.reverse]
    refine blockMargin_breaks _ 0 [] hbs hc hcolumn hleft hnext ?_
    rw [c.left_eq, hc, List.length_append]
    omega
  | false =>
    have hbs' : bs = [] := by
      rcases bs with - | ⟨ch, bs⟩
      · rfl
      · have hb := isBreak_of_isPlainBreak (hbs ch List.mem_cons_self)
        simp [isEdge, hb] at hedge
    subst hbs'
    rw [List.nil_append] at hne hedge hc
    rw [if_neg hne] at hc ⊢
    rw [if_neg hne]
    obtain ⟨ch, left, rfl⟩ := List.exists_cons_of_ne_nil hne
    refine ⟨c.skip 2, blockMargin_found hc hcolumn ?_, Cursor.rest_skip_spaces hc, ?_⟩
    · have hb := hleft ch rfl
      rw [blockRest, indented, hb]
      rintro d ⟨⟩
      refine ⟨?_, hprint ch List.mem_cons_self, hb⟩
      rintro rfl
      simp [isEdge] at hedge
    · rw [Cursor.column_skip, hcolumn]

/-- The lines behind the leading breaks are read, and chomped to what the text is. -/
lemma exists_blockLines (hbs : ∀ ch ∈ bs, isBreak ch = true)
    (hleft : ∀ ch ∈ left.head?, isBreak ch = false)
    (hbreaks : ∀ ch ∈ left, isBreak ch = true → IsPlainBreak ch) (hne : bs ++ left ≠ [])
    (hc : c.rest = if left = [] then next else blockRest left next)
    (hcolumn : c.column = if left = [] then 0 else 2) (hnext : AtWord next) :
    ∃ core leading breaks c',
      blockLines true 0 2 (c.left + 1) [] [] bs.reverse false c =
        some (core, leading, breaks, c') ∧
      (chomped (chompMark (bs ++ left)) leading breaks ++ core).reverse = bs ++ left ∧
      c'.rest = next ∧ c'.column = 0 := by
  split_ifs at hc hcolumn with hempty
  · refine ⟨[], [], bs.reverse, c, ?_, ?_, hc, hcolumn⟩
    · rw [blockLines, if_neg (by omega)]
    · subst hempty
      rw [List.append_nil] at hne
      rw [List.append_nil bs, chompMark_breaks hbs hne]
      simp [chomped]
  · have hfuel : left.length < c.left + 1 := by
      have hlength := length_le_indented 2 false left
      rw [c.left_eq, hc, blockRest, List.length_append]
      omega
    obtain ⟨core, last, more, c', hlines, hread, hnext', hcolumn'⟩ :=
      blockLines_eq (c.left + 1) [] [] bs.reverse false hempty hleft hbreaks hc hcolumn hnext hfuel
    refine ⟨_, _, _, c', hread, ?_, hnext', hcolumn'⟩
    conv_rhs => rw [← chomped_chompMark bs hlines hempty]
    simp

/-- **Literal blocks.**  A block is read back, whatever breaks it starts and ends with. -/
theorem block_literalBlock (h : admitsBlock text = true)
    (hc : c.rest = literalBlock 2 text ++ (ending text ++ next)) (hnext : AtWord next) :
    ∃ c', Scalar.block true 0 c = some (text, c') ∧ c'.rest = next ∧ c'.column = 0 := by
  simp only [admitsBlock, Bool.and_eq_true, Bool.not_eq_true', List.isEmpty_eq_false_iff,
    List.all_eq_true] at h
  obtain ⟨⟨⟨hne, hprint⟩, -⟩, -⟩ := h
  have hbreaks : ∀ ch ∈ text, isBreak ch = true → IsPlainBreak ch := fun ch hch =>
    isPlainBreak_of_isPrintable (hprint ch hch)
  rw [literalBlock_append] at hc
  have hmark : (c.skip 1).rest = _ := Cursor.rest_skip_append (a := ['|']) hc
  obtain ⟨c₁, hheader, hrest₁⟩ := blockHeader_eq
    (by unfold indentHint; split_ifs <;> simp) (by unfold chompMark; split_ifs <;> simp) hmark
  obtain ⟨hrest₂, hcolumn₂, -, -⟩ := skipBreak_cons (.inl rfl) hrest₁
  have hblank : c₁.skipWhile isWhite = c₁ := by
    simp [Cursor.skipWhile, hrest₁, isWhite]
  have hcomment : c₁.at? (· == '#') = false := Cursor.at?_cons hrest₁
  have hat : c₁.at? isBreak = true := Cursor.at?_cons hrest₁
  obtain ⟨bs, left, rfl, hbs, hleft⟩ := exists_span isBreak text
  have hbs' : ∀ ch ∈ bs, IsPlainBreak ch := fun ch hch =>
    hbreaks ch (List.mem_append_left _ hch) (hbs ch hch)
  obtain ⟨c₃, hmargin, hrest₃, hcolumn₃⟩ := blockMargin_first hbs'
    (fun ch hch => hprint ch (List.mem_append_right _ hch)) hleft hne hrest₂ hcolumn₂ hnext
  obtain ⟨core, leading, breaks, c', hread, htext, hnext', hcolumn'⟩ := exists_blockLines hbs hleft
    (fun ch hch => hbreaks ch (List.mem_append_right _ hch)) hne hrest₃ hcolumn₃ hnext
  refine ⟨c', ?_, hnext', hcolumn'⟩
  have hindent : (if (if indentHint (bs ++ left) = ['2'] then 2 else 0) = 0 then 0
      else (max 0 0 + ((if indentHint (bs ++ left) = ['2'] then 2 else 0 : ℕ) : ℤ)).toNat) =
      if indentHint (bs ++ left) = ['2'] then 2 else 0 := by
    by_cases hhint : indentHint (bs ++ left) = ['2'] <;> simp [hhint]
  unfold Scalar.block
  rw [hheader]
  simp only [Option.bind_eq_bind, Option.bind_some, hblank, hcomment, hat, Bool.not_true,
    Bool.and_false, Bool.false_eq_true, if_false, hindent, hmargin, hread]
  refine congrArg some (Prod.ext (Eq.trans ?_ htext) rfl)
  unfold chomped
  split_ifs <;> rfl

end Arbor.Document
