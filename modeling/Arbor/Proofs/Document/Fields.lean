import Arbor.Proofs.Document.Lines

/-!
# Fields of a document

A document is written one field on a line, and groups one field on a line of its own behind two
spaces.  The scanner reads it line by line, and the tokens are those of a mapping of the keys to the
values, groups being mappings in it (`tokens?_document`).
-/

namespace Arbor.Document

variable {c : Cursor} {key next : List Char} {indent : ℤ} {outer : List ℤ} {column : ℕ}
  {ts : List Token} {s : Scanner} {field : List Char × List Char}
  {fields : List (List Char × List Char)}

/-! ## What fields read as -/

/-- A text that can be written without quotes, with nothing in it that a document may not hold. -/
structure IsWord (text : List Char) : Prop where
  plain : Plain text
  chars : ∀ ch ∈ text, IsWordChar ch

/-- A value that reads as itself. -/
def Written.Fits : Written → Prop
  | text _ => True
  | plain t => IsWord t
  | group fields => fields ≠ [] ∧ ∀ field ∈ fields, IsKey field.1 ∧ IsWord field.2

/-- The tokens of a field in a group. -/
def fieldTokens (field : List Char × List Char) : List Token :=
  [.key, .scalar .plain field.1, .value, .scalar .plain field.2]

/-- The tokens of a value. -/
def Written.tokens : Written → List Token
  | text t => [.scalar (styleOf t) t]
  | plain t => [.scalar .plain t]
  | group fields => .blockMappingStart :: (fields.flatMap fieldTokens ++ [.blockEnd])

/-- The tokens of a field at the start of a line. -/
def lineTokens (field : String × Written) : List Token :=
  .key :: .scalar .plain field.1.toList :: .value :: field.2.tokens

/-! ## Groups -/

namespace Scanner

/-- The fields of a group from the first key on, and what is behind the group. -/
def groupRest (next : List Char) : List (List Char × List Char) → List Char
  | [] => next
  | (k, v) :: fields => k ++ ':' :: ' ' :: (v ++ '\n' ::
      ((if fields.isEmpty then [] else [' ', ' ']) ++ groupRest next fields))

lemma atKey_groupRest (next : List Char) (fields : List (List Char × List Char))
    (h : IsKey field.1) : AtKey (groupRest next (field :: fields)) := by
  obtain ⟨ch, key, hcons⟩ := List.exists_cons_of_ne_nil h.ne_nil
  rw [groupRest, hcons]
  rintro d ⟨⟩
  exact h.head ch (by rw [hcons]; rfl)

/-- A group is read field by field; the first one opens its mapping, and the line behind it closes
it. -/
lemma reads_group (hs : Ready s 2 indent outer ts (groupRest next (field :: fields)))
    (hfits : ∀ f ∈ field :: fields, IsKey f.1 ∧ IsWord f.2) (hnext : AtKey next)
    (hindent : indent ≤ 2) (houter : around indent outer 2 = [0, -1]) :
    ∃ n s', n + next.length ≤ (groupRest next (field :: fields)).length ∧ Reads n s s' ∧
      Ready s' 0 0 [-1] (ts ++
        (opening indent 2 ++ ((field :: fields).flatMap fieldTokens ++ [.blockEnd]))) next := by
  -- The first key finds the column of the lines around the group, every later one that of the group
  -- itself, so the columns vary in the induction; `houter` is what they have in common.
  induction fields generalizing field s ts indent outer with
  | nil =>
    obtain ⟨hkey, hword⟩ := hfits field List.mem_cons_self
    obtain ⟨s₁, hreads₁, hbehind⟩ := reads_key hs hkey rfl hindent
    obtain ⟨c, hreads₂, hc, hcolumn⟩ := reads_plain (k := 0) hbehind hword.plain (by omega) hnext
    rw [houter] at hreads₂
    refine ⟨2 + 1, _, ?_, hreads₁.trans hreads₂, ?_⟩
    · simp [groupRest]
      omega
    · have htokens : ts ++ (opening indent 2 ++ ([field].flatMap fieldTokens ++ [.blockEnd])) =
          ts ++ (opening indent 2 ++ [.key, .scalar .plain field.1, .value]) ++
            [.scalar .plain field.2] ++
            [.blockEnd] := by
        simp [fieldTokens]
      rw [htokens]
      exact ready_closed hc hcolumn hnext (by norm_num) le_rfl
  | cons f fields ih =>
    obtain ⟨hkey, hword⟩ := hfits field List.mem_cons_self
    have hfits' := fun g hg => hfits g (List.mem_cons_of_mem _ hg)
    have hgoing := atKey_groupRest next fields (hfits' f List.mem_cons_self).1
    obtain ⟨s₁, hreads₁, hbehind⟩ := reads_key hs hkey rfl hindent
    obtain ⟨c, hreads₂, hc, hcolumn⟩ := reads_plain (k := 2) hbehind hword.plain le_rfl hgoing
    rw [houter] at hreads₂
    obtain ⟨n, s', hlength, hreads, hready⟩ :=
      ih (ready_flat hc hcolumn hgoing le_rfl) hfits' le_rfl rfl
    refine ⟨2 + 1 + n, s', ?_, (hreads₁.trans hreads₂).trans hreads, ?_⟩
    · rw [groupRest]
      simp
      omega
    · have htokens : ts ++ (opening indent 2 ++
          ((field :: f :: fields).flatMap fieldTokens ++ [.blockEnd])) =
          ts ++ (opening indent 2 ++ [.key, .scalar .plain field.1, .value]) ++
            [.scalar .plain field.2] ++
            (opening 2 2 ++ ((f :: fields).flatMap fieldTokens ++ [.blockEnd])) := by
        simp [fieldTokens, opening]
      rw [htokens]
      exact hready

/-- The fields of a group as they are written. -/
lemma groupRest_eq (next : List Char) (hne : fields ≠ []) : ' ' :: ' ' :: groupRest next fields =
    (fields.flatMap fun (k, v) => "  ".toList ++ k ++ ": ".toList ++ v ++ ['\n']) ++ next := by
  induction fields with
  | nil => exact absurd rfl hne
  | cons f fields ih =>
    cases fields with
    | nil => simp [groupRest]
    | cons g fields =>
      have ih := ih (List.cons_ne_nil _ _)
      rw [groupRest, List.flatMap_cons, List.append_assoc, ← ih]
      simp

/-! ## Lines -/

/-- A line is read as a field, which opens the mapping if it is the first one. -/
lemma reads_line {v : Written} (hs : Ready s 0 indent outer ts (v.line key ++ next))
    (hkey : IsKey key) (hv : v.Fits) (hnext : AtKey next) (hindent : indent ≤ 0)
    (houter : around indent outer 0 = [-1]) :
    ∃ n s', n + next.length ≤ (v.line key ++ next).length ∧ Reads n s s' ∧ Ready s' 0 0 [-1]
      (ts ++ (opening indent 0 ++ (.key :: .scalar .plain key :: .value :: v.tokens))) next := by
  have hpositive := List.length_pos_iff.mpr hkey.ne_nil
  cases v with
  | text t =>
    have hline : (Written.text t).line key ++ next =
        key ++ ':' :: ' ' :: (textValue 2 t ++ next) := by
      simp [Written.line]
    rw [hline] at hs ⊢
    obtain ⟨s₁, hreads₁, hbehind⟩ := reads_key hs hkey rfl hindent
    rw [houter] at hbehind
    obtain ⟨s', hreads₂, hready⟩ := reads_text hbehind hnext
    refine ⟨2 + 1, s', ?_, hreads₁.trans hreads₂, ?_⟩
    · simp
      omega
    · simpa [Written.tokens] using hready
  | plain t =>
    have hline : (Written.plain t).line key ++ next = key ++ ':' :: ' ' :: (t ++ '\n' :: next) := by
      simp [Written.line]
    rw [hline] at hs ⊢
    obtain ⟨s₁, hreads₁, hbehind⟩ := reads_key hs hkey rfl hindent
    rw [houter] at hbehind
    obtain ⟨c, hreads₂, hc, hcolumn⟩ := reads_plain (k := 0) hbehind hv.plain le_rfl hnext
    refine ⟨2 + 1, _, ?_, hreads₁.trans hreads₂, ?_⟩
    · simp
      omega
    · simpa [Written.tokens] using ready_flat hc hcolumn hnext le_rfl
  | group fields =>
    have hline : (Written.group fields).line key ++ next =
        key ++ ':' :: '\n' :: (List.replicate 2 ' ' ++ groupRest next fields) := by
      have hgroup := groupRest_eq next hv.1
      have hspaces : List.replicate 2 ' ' ++ groupRest next fields =
          ' ' :: ' ' :: groupRest next fields := rfl
      rw [hspaces, hgroup, Written.line]
      simp
    rw [hline] at hs ⊢
    obtain ⟨field, fields, rfl⟩ := List.exists_cons_of_ne_nil hv.1
    obtain ⟨s₁, hreads₁, c, rfl, hc, -⟩ := reads_key hs hkey rfl hindent
    rw [houter] at hreads₁
    have hgoing := atKey_groupRest next fields (hv.2 field List.mem_cons_self).1
    have hready₁ : Ready
        (flat c (ts ++ (opening indent 0 ++ [.key, .scalar .plain key, .value])) 0 [-1] false [])
        2 0 [-1] _ _ := ready_break 2 hc hgoing (by norm_num)
    obtain ⟨n, s', hlength, hreads₂, hready⟩ := reads_group hready₁ hv.2 hnext (by norm_num) rfl
    refine ⟨2 + n, s', ?_, hreads₁.trans hreads₂, ?_⟩
    · simp
      omega
    · simpa [Written.tokens, opening] using hready

end Scanner

/-- Fields that are read back. -/
def FieldsFit (fields : List (String × Written)) : Prop :=
  ∀ field ∈ fields, IsKey field.1.toList ∧ field.2.Fits

namespace Scanner

lemma atKey_document {fields : List (String × Written)} (h : FieldsFit fields) :
    AtKey (document fields) := by
  cases fields with
  | nil =>
    intro ch hch
    cases hch
  | cons field fields =>
    have hkey := (h field List.mem_cons_self).1
    obtain ⟨ch, key, hcons⟩ := List.exists_cons_of_ne_nil hkey.ne_nil
    have hline : ∃ rest, document (field :: fields) = ch :: rest := by
      obtain ⟨k, v⟩ := field
      rw [document, List.flatMap_cons]
      dsimp only at hcons ⊢
      cases v <;> exact ⟨_, by rw [Written.line, hcons]; rfl⟩
    obtain ⟨rest, hline⟩ := hline
    rw [hline]
    rintro d ⟨⟩
    exact hkey.head ch (by rw [hcons]; rfl)

/-- Lines are read one after another. -/
lemma reads_lines {fields : List (String × Written)} (hs : Ready s 0 0 [-1] ts (document fields))
    (hfits : FieldsFit fields) :
    ∃ n s', n ≤ (document fields).length ∧ Reads n s s' ∧
      Ready s' 0 0 [-1] (ts ++ fields.flatMap lineTokens) [] := by
  induction fields generalizing s ts with
  | nil => exact ⟨0, s, le_rfl, .refl s, by simpa [document] using hs⟩
  | cons field fields ih =>
    obtain ⟨hkey, hv⟩ := hfits field List.mem_cons_self
    have hfits' : FieldsFit fields := fun f hf => hfits f (List.mem_cons_of_mem _ hf)
    have hcons : document (field :: fields) = field.2.line field.1.toList ++ document fields := rfl
    rw [hcons] at hs ⊢
    obtain ⟨m, s₁, hm, hreads₁, hready⟩ := reads_line hs hkey hv (atKey_document hfits') le_rfl rfl
    obtain ⟨n, s', hn, hreads₂, hready'⟩ := ih hready hfits'
    refine ⟨m + n, s', by omega, hreads₁.trans hreads₂, ?_⟩
    simpa [opening, lineTokens] using hready'

/-- The end of the text closes the mapping. -/
lemma run_end (fuel : ℕ) (hs : Ready s 0 0 [-1] ts []) :
    run (fuel + 1) s = some (ts ++ [.blockEnd, .streamEnd]) := by
  obtain ⟨c, hsettle, hc, -⟩ := hs
  have hread : (flat c ts 0 [-1] true []).read =
      some (flat c (ts ++ [.blockEnd, .streamEnd]) (-1) [] true []) := by
    unfold read
    dsimp only
    rw [hc]
    simp [unroll, unroll.close, removeKey, splitKey, push]
  rw [run_succ, hsettle, Option.bind_some, hread]
  simp

/-- The tokens of a document: its fields line by line, in a mapping. -/
lemma run_document {field : String × Written} {fields : List (String × Written)}
    (hfits : FieldsFit (field :: fields)) :
    run ((document (field :: fields)).length + 1) (start (document (field :: fields))) =
      some (.blockMappingStart :: ((field :: fields).flatMap lineTokens ++
        [.blockEnd, .streamEnd])) := by
  obtain ⟨hkey, hv⟩ := hfits field List.mem_cons_self
  have hfits' : FieldsFit fields := fun f hf => hfits f (List.mem_cons_of_mem _ hf)
  have hcons : document (field :: fields) = field.2.line field.1.toList ++ document fields := rfl
  have hstart : Ready (start (document (field :: fields))) 0 (-1) [] []
      (document (field :: fields)) :=
    ready_flat rfl rfl (atKey_document hfits) (by norm_num)
  rw [hcons] at hstart ⊢
  obtain ⟨m, s₁, hm, hreads₁, hready⟩ :=
    reads_line hstart hkey hv (atKey_document hfits') (by norm_num) rfl
  obtain ⟨n, s', hn, hreads₂, hready'⟩ := reads_lines hready hfits'
  obtain ⟨fuel, hfuel⟩ : ∃ fuel, (field.2.line field.1.toList ++ document fields).length + 1 =
    m + n + (fuel + 1) :=
    ⟨(field.2.line field.1.toList ++ document fields).length - (m + n), by omega⟩
  rw [hfuel, (hreads₁.trans hreads₂).run_eq, run_end _ hready']
  simp [opening, lineTokens]

end Scanner

/-! ## Characters that a document may hold -/

section Allowed

variable {ch : Char} {text : List Char}

lemma isAllowed_of_isPrintable (h : isPrintable ch = true) : isAllowed ch = true := by
  simp only [isPrintable, isAllowed, Bool.or_eq_true, Bool.and_eq_true, decide_eq_true_eq,
    beq_iff_eq, bne_iff_ne] at h ⊢
  omega

lemma all_of_isPrintable (h : text.all isPrintable = true) : text.all isAllowed = true :=
  List.all_eq_true.mpr fun ch hch => isAllowed_of_isPrintable (List.all_eq_true.mp h ch hch)

lemma all_of_isWordChar (h : ∀ ch ∈ text, IsWordChar ch) : text.all isAllowed = true :=
  List.all_eq_true.mpr fun ch hch => (h ch hch).isAllowed

lemma all_indented (n : ℕ) (broken : Bool) (text : List Char) :
    (indented n broken text).all isAllowed = text.all isAllowed := by
  induction text generalizing broken with
  | nil => rfl
  | cons d text ih =>
    rw [indented]
    split_ifs
    · rw [List.all_cons, List.all_cons, ih]
    · simp [ih, isAllowed]
    · simp [ih]

lemma all_doubleQuoted (text : List Char) : (doubleQuoted text).all isAllowed = true := by
  have hpieces : (text.flatMap doublePiece).all isAllowed = true := by
    rw [List.all_flatMap, List.all_eq_true]
    intro ch _
    unfold doublePiece
    split_ifs with hescape
    · obtain ⟨e, hpiece, he⟩ := escapeOf_spec ch
      rw [hpiece, List.all_cons, List.all_eq_true.mpr fun d hd => (he.inline d hd).2]
      rfl
    · simp only [Bool.or_eq_true, Bool.not_eq_true', not_or, Bool.not_eq_false] at hescape
      simp [isAllowed_of_isPrintable hescape.1.1.1]
  have hdouble : doubleQuoted text = '"' :: text.flatMap doublePiece ++ ['"'] := rfl
  rw [hdouble, List.all_append, List.all_cons, hpieces]
  rfl

lemma all_singleQuoted (h : text.all isPrintable = true) :
    (singleQuoted 2 text).all isAllowed = true := by
  have hpieces :
      (text.flatMap fun c => if c == '\'' then [c, c] else [c]).all isAllowed = true := by
    rw [List.all_flatMap, List.all_eq_true]
    intro ch hch
    have hallowed := isAllowed_of_isPrintable (List.all_eq_true.mp h ch hch)
    split_ifs <;> simp [hallowed]
  unfold singleQuoted
  simp only [List.all_append, List.all_cons, all_indented, hpieces]
  split_ifs <;> decide

lemma all_literalBlock (h : text.all isPrintable = true) :
    (literalBlock 2 text).all isAllowed = true := by
  unfold literalBlock
  simp only [List.all_append, List.all_cons, all_indented, all_of_isPrintable h]
  split_ifs <;> decide

lemma all_textValue (text : List Char) : (textValue 2 text).all isAllowed = true := by
  have hend : ∀ {written : List Char}, written.all isAllowed = true →
      (written ++ ['\n']).all isAllowed = true := by
    intro written hwritten
    rw [List.all_append, hwritten]
    rfl
  have hprint : admitsSingle text = true → text.all isPrintable = true := fun hsingle =>
    (Bool.and_eq_true_iff.mp hsingle).1
  unfold textValue
  by_cases hfeed : text.contains '\n' = true
  · rw [if_pos hfeed]
    split_ifs with hblock hlast
    · rw [List.append_nil]
      exact all_literalBlock (by simp_all [admitsBlock])
    · exact hend (all_literalBlock (by simp_all [admitsBlock]))
    · exact hend (all_doubleQuoted text)
  · rw [if_neg hfeed]
    split_ifs with hplain hsingle
    · exact hend (all_of_isPrintable (hprint (by simp_all [admitsPlain])))
    · exact hend (all_singleQuoted (hprint hsingle))
    · exact hend (all_doubleQuoted text)

end Allowed

lemma all_line {v : Written} (hkey : IsKey key) (hv : v.Fits) :
    (v.line key).all isAllowed = true := by
  have hkey := all_of_isWordChar hkey.chars
  have hcolon : isAllowed ':' = true ∧ isAllowed ' ' = true ∧ isAllowed '\n' = true := by decide
  cases v with
  | text t => simp [Written.line, hkey, all_textValue, hcolon]
  | plain t => simp [Written.line, hkey, all_of_isWordChar hv.chars, hcolon]
  | group fields =>
    have hfields : ∀ k v, (k, v) ∈ fields →
        (∀ ch ∈ k, isAllowed ch = true) ∧ ∀ ch ∈ v, isAllowed ch = true := fun k v hf =>
      ⟨fun ch hch => ((hv.2 _ hf).1.chars ch hch).isAllowed,
        fun ch hch => ((hv.2 _ hf).2.chars ch hch).isAllowed⟩
    simpa [Written.line, hkey, hcolon] using hfields

/-- **Scanning.**  A document of fields reads as the tokens of a mapping. -/
theorem tokens?_document {field : String × Written} {fields : List (String × Written)}
    (hfits : FieldsFit (field :: fields)) :
    tokens? (document (field :: fields)) =
      some (.blockMappingStart :: ((field :: fields).flatMap lineTokens ++
        [.blockEnd, .streamEnd])) := by
  have hall : (document (field :: fields)).all isAllowed = true := by
    rw [document, List.all_flatMap, List.all_eq_true]
    exact fun f hf => all_line (hfits f hf).1 (hfits f hf).2
  rw [tokens?, if_pos hall, Scanner.run_document hfits]

end Arbor.Document
