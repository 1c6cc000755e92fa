import Arbor.Proofs.Decimal.Survival
import Arbor.Proofs.Document.Nodes

/-!
# Values in a document

Numbers and truth values are written as plain words, and each is read back by the reader of its
type.  A natural number is itself again and a truth value too; a single is what the nearest double
to its decimal is narrowed to (`reread`), which is itself unless it is torn.
-/

namespace Arbor

open Document Decimal Number

variable {x : Float32} {n : ℕ} {text : List Char} {c : Contents}

/-! ## Words -/

namespace Decimal

lemma isWordChar_of_isDigit {ch : Char} (h : ch.isDigit = true) : IsWordChar ch :=
  .inl (by simp [Char.isAlphanum, h])

lemma isWordChar_digits (n : ℕ) : ∀ ch ∈ digits n, IsWordChar ch := fun ch hch =>
  isWordChar_of_isDigit ((digits_digits n).2 ch hch)

lemma isWordChar_positional {ds : List Char} (h : ∀ ch ∈ ds, IsWordChar ch) (e : ℤ) :
    ∀ ch ∈ positional ".0".toList ds e, IsWordChar ch := by
  have hzeros : ∀ (k : ℕ), ∀ ch ∈ List.replicate k '0', IsWordChar ch := fun k ch hch => by
    rw [List.eq_of_mem_replicate hch]
    decide
  have hpoint : IsWordChar '.' ∧ IsWordChar '0' := by decide
  unfold positional
  dsimp only
  split_ifs
  · exact List.forall_mem_append.mpr ⟨List.forall_mem_append.mpr ⟨h, hzeros _⟩,
      List.forall_mem_cons.mpr ⟨hpoint.1, List.forall_mem_singleton.mpr hpoint.2⟩⟩
  · exact List.forall_mem_append.mpr ⟨fun ch hch => h ch (List.mem_of_mem_take hch),
      List.forall_mem_cons.mpr ⟨hpoint.1, fun ch hch => h ch (List.mem_of_mem_drop hch)⟩⟩
  · exact List.forall_mem_append.mpr
      ⟨List.forall_mem_cons.mpr ⟨hpoint.2, List.forall_mem_cons.mpr ⟨hpoint.1, hzeros _⟩⟩, h⟩

lemma isWordChar_signed (negative : Bool) (h : ∀ ch ∈ text, IsWordChar ch) :
    ∀ ch ∈ signed negative text, IsWordChar ch := by
  cases negative with
  | false => exact h
  | true => exact List.forall_mem_cons.mpr ⟨by decide, h⟩

lemma isWordChar_scientific {ds : List Char} (h : ∀ ch ∈ ds, IsWordChar ch) (k : ℤ) :
    ∀ ch ∈ scientific ds k, IsWordChar ch := by
  have hdrop : ∀ ch ∈ ds.drop 1, IsWordChar ch := fun ch hch => h ch (List.mem_of_mem_drop hch)
  have hexponent : ∀ ch ∈ 'e' :: (toString k).toList, IsWordChar ch := by
    rw [toList_toString]
    exact List.forall_mem_cons.mpr ⟨by decide, isWordChar_signed _ (isWordChar_digits _)⟩
  unfold scientific
  dsimp only
  rw [List.forall_mem_append, List.forall_mem_append]
  refine ⟨⟨fun ch hch => h ch (List.mem_of_mem_take hch), ?_⟩, hexponent⟩
  cases hrest : ds.drop 1 with
  | nil => exact List.forall_mem_nil _
  | cons d rest => exact List.forall_mem_cons.mpr ⟨by decide, hrest ▸ hdrop⟩

lemma isWordChar_spelled (d : Scaled) : ∀ ch ∈ spelled d, IsWordChar ch := by
  unfold spelled
  dsimp only
  split_ifs
  · exact isWordChar_positional (isWordChar_digits _) _
  · exact isWordChar_scientific (isWordChar_digits _) _

/-- A word that starts with a digit, perhaps behind a sign. -/
lemma isWord_signed (negative : Bool) (hhead : ∃ ch rest, text = ch :: rest ∧ ch.isDigit = true)
    (h : ∀ ch ∈ text, IsWordChar ch) : IsWord (signed negative text) := by
  have hsigned := isWordChar_signed negative h
  refine ⟨?_, hsigned⟩
  obtain ⟨ch, rest, rfl, hdigit⟩ := hhead
  cases negative with
  | false =>
    refine plain_of_isWordChar hsigned fun hsign => ?_
    rw [hsign] at hdigit
    cases hdigit
  | true => exact plain_of_isWordChar hsigned fun _ => List.cons_ne_nil _ _

/-- A number is written as a word. -/
lemma isWord_document (hx : IsFinite x) : IsWord (document x) := by
  obtain ⟨n, negative, hn, rfl⟩ := exists_size hx
  rw [document_ofBits hn]
  apply isWord_signed
  · split_ifs
    · exact ⟨'0', _, rfl, by decide⟩
    · exact isDigit_head_spelled _
  · split_ifs
    · exact List.forall_mem_cons.mpr ⟨by decide, List.forall_mem_cons.mpr ⟨by decide,
        List.forall_mem_singleton.mpr (by decide)⟩⟩
    · exact isWordChar_spelled _

lemma isWord_digits (n : ℕ) : IsWord (digits n) := by
  obtain ⟨ch, rest, hcons⟩ := List.exists_cons_of_ne_nil (digits_digits n).1
  exact isWord_signed false ⟨ch, rest, hcons, (digits_digits n).2 ch (hcons ▸ List.mem_cons_self)⟩
    (isWordChar_digits n)

end Decimal

/-! ## Reading words -/

namespace Document

/-- The truth value that is written as a word. -/
lemma isWord_truth (b : Bool) : IsWord (if b then "true".toList else "false".toList) := by
  have hword : ∀ {ch : Char} {text : List Char}, (ch :: text).all Char.isAlpha = true →
      IsWord (ch :: text) := by
    intro ch text hall
    have hchars : ∀ d ∈ ch :: text, IsWordChar d := fun d hd =>
      .inl (by simp [Char.isAlphanum, List.all_eq_true.mp hall d hd])
    refine ⟨plain_of_isWordChar hchars fun hsign => ?_, hchars⟩
    subst hsign
    cases hall
  cases b
  · exact hword (by decide)
  · exact hword (by decide)

lemma truth?_word (b : Bool) : truth? (if b then "true".toList else "false".toList) = some b := by
  cases b <;> decide

lemma digit?_of_isDigit {ch : Char} (h : ch.isDigit = true) :
    digit? 10 ch = some (ch.toNat - '0'.toNat) := by
  have hrange : ch.toNat - '0'.toNat < 10 := by
    simp only [Char.isDigit, ge_iff_le, Bool.and_eq_true, decide_eq_true_eq,
      UInt32.le_iff_toNat_le] at h
    have htoNat : ch.toNat = ch.val.toNat := rfl
    have hends : '9'.val.toNat = 57 ∧ '0'.toNat = 48 := by decide
    omega
  simp only [digit?, Scalar.hexValue?, List.foldl_cons, List.foldl_nil, h]
  simpa using hrange

lemma inBase?_digits {bound : ℕ} (hn : n < bound) : inBase? 10 bound (digits n) = some n := by
  have hfold : ∀ (ds : List Char) (a : ℕ), (∀ ch ∈ ds, ch.isDigit = true) →
      ds.foldl (fun n d => do return 10 * (← n) + (← digit? 10 d)) (some a) =
        some (ds.foldl (fun n d => 10 * n + (d.toNat - '0'.toNat)) a) := by
    intro ds
    induction ds with
    | nil => exact fun _ _ => rfl
    | cons d ds ih =>
      intro a hds
      rw [List.foldl_cons, List.foldl_cons,
        ← ih _ fun ch hch => hds ch (List.mem_cons_of_mem _ hch)]
      simp [digit?_of_isDigit (hds d List.mem_cons_self)]
  have hempty : (digits n).isEmpty = false := List.isEmpty_eq_false_iff.mpr (digits_digits n).1
  have hvalue : (digits n).foldl (fun n d => 10 * n + (d.toNat - '0'.toNat)) 0 = n := value_digits n
  rw [inBase?, hempty, if_neg Bool.false_ne_true, hfold _ _ (digits_digits n).2, hvalue]
  simp [hn]

/-- Digits are read as the number that they are the digits of. -/
lemma unsigned?_digits {bound : ℕ} (hn : n < bound) : unsigned? bound (digits n) = some n := by
  have hread := inBase?_digits hn
  rcases Nat.eq_zero_or_pos n with rfl | hpos
  · exact hread
  · have hhead := head?_digits_ne_zero hpos
    obtain ⟨ch, rest, hcons⟩ := List.exists_cons_of_ne_nil (digits_digits n).1
    have hdigit := (digits_digits n).2 ch (hcons ▸ List.mem_cons_self)
    rw [hcons] at hread hhead ⊢
    have hzero : ch ≠ '0' := fun heq => hhead (by rw [heq]; rfl)
    have hplus : ch ≠ '+' := by
      rintro rfl
      cases hdigit
    have hminus : ch ≠ '-' := by
      rintro rfl
      cases hdigit
    unfold unsigned? baseOf? isZeroLed
    simp [hzero, hplus, hminus, hread]

/-- What a number is read back as. -/
def reread (x : Float32) : Float32 := ((float? (Decimal.document x)).map narrow).getD x

/-- A number that is read back as itself survives. -/
lemma reread_eq_iff (hx : IsFinite x) : reread x = x ↔ ¬ Torn x := by
  obtain ⟨y, hread, hy⟩ := narrow_document hx
  rw [reread, hread]
  exact hy

namespace Contents

lemma text_scalar (style : Style) (text : List Char) (tag : Option Octets) :
    c.text (.scalar style tag text) = pure text := rfl

lemma typed_plain (type : String) (text : List Char) (tag : Option Octets) :
    c.typed type (.scalar .plain tag text) = pure text := rfl

lemma string_scalar (style : Style) (text : String) :
    c.string (.scalar style none text.toList) = pure text := by
  simp [string, text_scalar]

lemma bool_word (b : Bool) :
    c.bool (.scalar .plain none (if b then "true".toList else "false".toList)) = pure b := by
  simp only [bool, typed_plain, pure_bind, truth?_word]
  rfl

lemma nat_digits {bound : ℕ} (hn : n < bound) :
    c.nat bound (.scalar .plain none (digits n)) = pure n := by
  simp only [nat, typed_plain, pure_bind, unsigned?_digits hn]
  rfl

lemma single_document (hx : IsFinite x) :
    c.single (.scalar .plain none (Decimal.document x)) = pure (reread x) := by
  obtain ⟨y, hread, -⟩ := narrow_document hx
  simp only [single, typed_plain, pure_bind, hread, reread]
  rfl

lemma fields_mapping {α : Type} (key : α → List Char) (value : α → Node) (fields : List α) :
    c.fields (Reading.mappingOf key value fields) =
      pure (fields.map fun f => (key f, value f)) := by
  have hall : ∀ fields : List α,
      (fields.map fun f => ((.scalar .plain none (key f), value f) : Node × Node)).mapM
        (fun e => do return (← c.text e.1, e.2)) =
      (pure (fields.map fun f => (key f, value f)) : Allowed _) := by
    intro fields
    induction fields with
    | nil => rfl
    | cons f fields ih =>
      rw [List.map_cons, List.mapM_cons, ih]
      simp [text_scalar]
  exact hall fields

end Contents

/-! ## Fields -/

section Fields

variable {α : Type} {key : α → List Char} {value : α → Node} {fields : List α} {f : α}
  {name : String}

/-- No other field has the name of a field. -/
lemma filter_fields (hnodup : (fields.map key).Nodup) (hf : f ∈ fields)
    (hname : key f = name.toList) :
    (fields.map fun f => (key f, value f)).filter (·.1 == name.toList) = [(key f, value f)] := by
  induction fields with
  | nil => cases hf
  | cons g fields ih =>
    rw [List.map_cons, List.nodup_cons] at hnodup
    rcases List.mem_cons.mp hf with rfl | hf
    · have hothers : (fields.map fun f => (key f, value f)).filter (·.1 == name.toList) = [] := by
        rw [List.filter_eq_nil_iff]
        intro p hp
        obtain ⟨g, hg, rfl⟩ := List.mem_map.mp hp
        rw [← hname, beq_iff_eq]
        exact fun heq => hnodup.1 (heq ▸ List.mem_map_of_mem hg)
      rw [List.map_cons, List.filter_cons_of_pos (by simp [hname]), hothers]
    · have hne : key g ≠ name.toList := by
        rw [← hname]
        exact fun heq => hnodup.1 (heq ▸ List.mem_map_of_mem hf)
      rw [List.map_cons, List.filter_cons_of_neg (by simpa using hne), ih hnodup.2 hf]

variable {β : Type} {read : Node → Allowed β}

lemma required_eq (hnodup : (fields.map key).Nodup) (hf : f ∈ fields)
    (hname : key f = name.toList) :
    required (fields.map fun f => (key f, value f)) name read = read (value f) := by
  rw [required, filter_fields hnodup hf hname]

lemma optional_eq (usual : β) (hnodup : (fields.map key).Nodup) (hf : f ∈ fields)
    (hname : key f = name.toList) :
    optional (fields.map fun f => (key f, value f)) name usual read = read (value f) := by
  rw [optional, filter_fields hnodup hf hname]

end Fields

end Document

end Arbor
