import Mathlib.Data.List.Basic
import Mathlib.Tactic.IntervalCases
import Mathlib.Tactic.Lemma
import Mathlib.Tactic.SplitIfs

/-!
# JSON texts

The grammar of JSON texts, as a relation between a text and the value that it stands for
(`Json.Value`).  A string stands for its UTF-16 units, so that each escape of the grammar has a
meaning, that of half a pair too.

That a text is not JSON is seen by a scanner, which reads from the left and keeps whether it is
inside of a string.  It refuses characters that can stand nowhere; a text of the grammar takes it
back to where it started (`Json.Value.scan_eq`).
-/

namespace Arbor.Text

/-! ## UTF-16 -/

/-- The units of a character: itself, or the two halves of a pair. -/
def units (c : Char) : List ℕ :=
  if c.toNat < 0x10000 then [c.toNat]
  else [0xD800 + (c.toNat - 0x10000) / 0x400, 0xDC00 + (c.toNat - 0x10000) % 0x400]

/-- The units of a text. -/
def utf16 (text : List Char) : List ℕ := text.flatMap units

/-! ## The grammar -/

/-- A JSON value.  A number is kept as it is written, and a string as its units. -/
inductive Json where
  | null
  | bool (b : Bool)
  | number (text : List Char)
  | string (units : List ℕ)
  | array (items : List Json)
  | object (members : List (List ℕ × Json))

namespace Json

/-- The characters between the parts of a text. -/
def blanks : List Char := [' ', '\t', '\n', '\r']

/-- The letters of the short escapes, and the characters that they stand for. -/
def shortEscapes : List (Char × Char) :=
  [('"', '"'), ('\\', '\\'), ('/', '/'), ('b', '\x08'), ('f', '\x0c'), ('n', '\n'), ('r', '\r'),
    ('t', '\t')]

/-- The value of a hexadecimal digit. -/
def hexValue? (c : Char) : Option ℕ :=
  if c.isDigit then some (c.toNat - '0'.toNat)
  else if 'a'.toNat ≤ c.toNat ∧ c.toNat ≤ 'f'.toNat then some (c.toNat - 'a'.toNat + 10)
  else if 'A'.toNat ≤ c.toNat ∧ c.toNat ≤ 'F'.toNat then some (c.toNat - 'A'.toNat + 10)
  else none

/-- What stands between the quotes of a string, and its units. -/
inductive Quoted : List Char → List ℕ → Prop
  | nil : Quoted [] []
  | plain {c : Char} {t : List Char} {u : List ℕ} (hquote : c ≠ '"') (hslash : c ≠ '\\')
      (hcontrol : 0x20 ≤ c.toNat) (h : Quoted t u) : Quoted (c :: t) (units c ++ u)
  | short {e c : Char} {t : List Char} {u : List ℕ} (he : (e, c) ∈ shortEscapes)
      (h : Quoted t u) : Quoted ('\\' :: e :: t) (units c ++ u)
  | hex {a b c d : Char} {i j k l : ℕ} {t : List Char} {u : List ℕ} (ha : hexValue? a = some i)
      (hb : hexValue? b = some j) (hc : hexValue? c = some k) (hd : hexValue? d = some l)
      (h : Quoted t u) :
      Quoted ('\\' :: 'u' :: a :: b :: c :: d :: t) ((((i * 16 + j) * 16 + k) * 16 + l) :: u)

/-- At least one decimal digit and nothing else. -/
def Digits (t : List Char) : Prop := t ≠ [] ∧ ∀ c ∈ t, c.isDigit = true

/-- Digits without a zero in front, unless it is the only one. -/
def Whole (t : List Char) : Prop := Digits t ∧ (t.head? = some '0' → t = ['0'])

/-- A number: a whole part, and maybe a sign, a fraction and an exponent. -/
inductive Numeral : List Char → Prop
  | mk {sign whole fraction exponent : List Char} (hsign : sign = [] ∨ sign = ['-'])
      (hwhole : Whole whole)
      (hfraction : fraction = [] ∨ ∃ ds, Digits ds ∧ fraction = '.' :: ds)
      (hexponent : exponent = [] ∨ ∃ e ∈ ['e', 'E'], ∃ s ∈ [[], ['+'], ['-']], ∃ ds, Digits ds ∧
        exponent = e :: s ++ ds) :
      Numeral (sign ++ whole ++ fraction ++ exponent)

/-- A member of an object: its name between two runs of blanks, and its value. -/
structure Member where
  before : List Char
  name : List Char
  after : List Char
  text : List Char
  key : List ℕ
  value : Json

namespace Member

/-- The text of a member. -/
def written (m : Member) : List Char :=
  m.before ++ '"' :: m.name ++ '"' :: m.after ++ ':' :: m.text

/-- The parts before the value are as they have to be. -/
structure Named (m : Member) : Prop where
  before : ∀ c ∈ m.before, c ∈ blanks
  name : Quoted m.name m.key
  after : ∀ c ∈ m.after, c ∈ blanks

end Member

/-- The texts of a value. -/
inductive Value : List Char → Json → Prop
  | pad {before t after : List Char} {v : Json} (hbefore : ∀ c ∈ before, c ∈ blanks)
      (h : Value t v) (hafter : ∀ c ∈ after, c ∈ blanks) : Value (before ++ t ++ after) v
  | null : Value "null".toList .null
  | bool (b : Bool) : Value (toString b).toList (.bool b)
  | number {t : List Char} (h : Numeral t) : Value t (.number t)
  | string {t : List Char} {u : List ℕ} (h : Quoted t u) : Value ('"' :: t ++ ['"']) (.string u)
  | blankArray {t : List Char} (h : ∀ c ∈ t, c ∈ blanks) : Value ('[' :: t ++ [']']) (.array [])
  | array {items : List (List Char × Json)} (h : ∀ i ∈ items, Value i.1 i.2) :
      Value ('[' :: [','].intercalate (items.map Prod.fst) ++ [']']) (.array (items.map Prod.snd))
  | blankObject {t : List Char} (h : ∀ c ∈ t, c ∈ blanks) :
      Value ('\x7b' :: t ++ ['\x7d']) (.object [])
  | object {members : List Member} (hnamed : ∀ m ∈ members, m.Named)
      (h : ∀ m ∈ members, Value m.text m.value) :
      Value ('\x7b' :: [','].intercalate (members.map Member.written) ++ ['\x7d'])
        (.object (members.map fun m => (m.key, m.value)))

/-- Whether a character stands for itself between quotes. -/
def isPlain (c : Char) : Bool := c ≠ '"' ∧ c ≠ '\\' ∧ 0x20 ≤ c.toNat

lemma quoted_plain {t : List Char} (h : t.all isPlain = true) : Quoted t (utf16 t) := by
  induction t with
  | nil => exact .nil
  | cons c t ih =>
    rw [List.all_cons, Bool.and_eq_true] at h
    obtain ⟨hquote, hslash, hcontrol⟩ := of_decide_eq_true h.1
    exact .plain hquote hslash hcontrol (ih h.2)

/-! ## The scanner -/

/-- Where in a text the scanner is. -/
inductive Mode where
  | outside
  | inside
  | escaped
  | refused
  deriving DecidableEq

/-- The characters that can stand outside of strings. -/
def bare : List Char :=
  [' ', '\t', '\n', '\r', '+', ',', '-', '.', '0', '1', '2', '3', '4', '5', '6', '7', '8', '9', ':',
    'E', '[', ']', 'a', 'e', 'f', 'l', 'n', 'r', 's', 't', 'u', '\x7b', '\x7d']

/-- What one character does. -/
def Mode.next : Mode → Char → Mode
  | .outside, c => if c = '"' then .inside else if c ∈ bare then .outside else .refused
  | .inside, c =>
    if c = '"' then .outside
    else if c = '\\' then .escaped
    else if 0x20 ≤ c.toNat then .inside
    else .refused
  | .escaped, _ => .inside
  | .refused, _ => .refused

/-- Where the scanner is after a text. -/
def scan (m : Mode) (t : List Char) : Mode := t.foldl Mode.next m

lemma scan_cons (m : Mode) (c : Char) (t : List Char) : scan m (c :: t) = scan (m.next c) t := rfl

lemma scan_append (m : Mode) (t u : List Char) : scan m (t ++ u) = scan (scan m t) u :=
  List.foldl_append

lemma scan_refused (t : List Char) : scan .refused t = .refused := by
  induction t with
  | nil => rfl
  | cons c t ih => exact ih

lemma scan_of_bare {t : List Char} (h : ∀ c ∈ t, c ∈ bare) : scan .outside t = .outside := by
  induction t with
  | nil => rfl
  | cons c t ih =>
    have hc : c ∈ bare := h c List.mem_cons_self
    have hquote : c ≠ '"' := by
      rintro rfl
      exact absurd hc (by decide)
    rw [scan_cons, Mode.next, if_neg hquote, if_pos hc]
    exact ih fun d hd => h d (List.mem_cons_of_mem c hd)

lemma scan_blanks {t : List Char} (h : ∀ c ∈ t, c ∈ blanks) : scan .outside t = .outside := by
  have hbare : ∀ c ∈ blanks, c ∈ bare := by simp [blanks, bare]
  exact scan_of_bare fun c hc => hbare c (h c hc)

lemma scan_intercalate {ts : List (List Char)} (h : ∀ t ∈ ts, scan .outside t = .outside) :
    scan .outside ([','].intercalate ts) = .outside := by
  induction ts with
  | nil => rfl
  | cons t ts ih =>
    have htail := ih fun u hu => h u (List.mem_cons_of_mem t hu)
    cases ts with
    | nil =>
      rw [List.intercalate_singleton]
      exact h t List.mem_cons_self
    | cons u ts =>
      rw [List.intercalate_cons_cons, scan_append, scan_append, h t List.mem_cons_self]
      exact htail

/-- A part that is refused is refused in a list of parts that do not end inside of a string. -/
lemma scan_intercalate_refused {ts : List (List Char)} {t : List Char}
    (h : ∀ t ∈ ts, scan .outside t = .outside ∨ scan .outside t = .refused) (ht : t ∈ ts)
    (hrefused : scan .outside t = .refused) :
    scan .outside ([','].intercalate ts) = .refused := by
  induction ts with
  | nil => cases ht
  | cons u ts ih =>
    cases ts with
    | nil =>
      rw [List.intercalate_singleton, ← List.mem_singleton.mp ht]
      exact hrefused
    | cons v ts =>
      rw [List.intercalate_cons_cons, scan_append, scan_append]
      rcases h u List.mem_cons_self with hu | hu
      · have hne : t ≠ u := by
          rintro rfl
          rw [hu] at hrefused
          cases hrefused
        rw [hu]
        exact ih (fun w hw => h w (List.mem_cons_of_mem u hw)) (List.mem_of_ne_of_mem hne ht)
      · rw [hu, scan_refused, scan_refused]

/-! ## What the scanner says of a text of the grammar -/

lemma space_le_of_isDigit {c : Char} (h : c.isDigit = true) : 0x20 ≤ c.toNat :=
  le_trans (by decide) (Char.isDigit_iff_toNat.mp h).1

lemma mem_bare_of_isDigit {c : Char} (h : c.isDigit = true) : c ∈ bare := by
  obtain ⟨hlow, hhigh⟩ := Char.isDigit_iff_toNat.mp h
  have hchar : c = Char.ofNat c.toNat := (Char.ofNat_toNat c).symm
  rw [hchar]
  change 48 ≤ c.toNat at hlow
  change c.toNat ≤ 57 at hhigh
  interval_cases c.toNat <;> decide

lemma Numeral.mem_bare {t : List Char} (h : Numeral t) : ∀ c ∈ t, c ∈ bare := by
  have hdigits : ∀ {ds : List Char}, Digits ds → ∀ c ∈ ds, c ∈ bare :=
    fun h c hc => mem_bare_of_isDigit (h.2 c hc)
  obtain ⟨hsign, hwhole, hfraction, hexponent⟩ := h
  intro c hc
  rcases List.mem_append.mp hc with hc | hc
  · rcases List.mem_append.mp hc with hc | hc
    · rcases List.mem_append.mp hc with hc | hc
      · rcases hsign with rfl | rfl
        · cases hc
        · rw [List.mem_singleton.mp hc]
          decide
      · exact hdigits hwhole.1 c hc
    · obtain rfl | ⟨ds, hds, rfl⟩ := hfraction
      · cases hc
      · rcases List.mem_cons.mp hc with rfl | hc
        · decide
        · exact hdigits hds c hc
  · obtain rfl | ⟨e, he, s, hs, ds, hds, rfl⟩ := hexponent
    · cases hc
    · have hletter : ∀ e ∈ ['e', 'E'], e ∈ bare := by simp [bare]
      have hsigns : ∀ s ∈ [[], ['+'], ['-']], ∀ c ∈ s, c ∈ bare := by simp [bare]
      rcases List.mem_cons.mp hc with rfl | hc
      · exact hletter c he
      · rcases List.mem_append.mp hc with hc | hc
        · exact hsigns s hs c hc
        · exact hdigits hds c hc

lemma next_inside {c : Char} (hquote : c ≠ '"') (hslash : c ≠ '\\') (hcontrol : 0x20 ≤ c.toNat) :
    Mode.next .inside c = .inside := by
  rw [Mode.next, if_neg hquote, if_neg hslash, if_pos hcontrol]

lemma next_of_hexValue? {c : Char} {n : ℕ} (h : hexValue? c = some n) :
    Mode.next .inside c = .inside := by
  have hquote : c ≠ '"' := by
    rintro rfl
    cases h
  have hslash : c ≠ '\\' := by
    rintro rfl
    cases h
  apply next_inside hquote hslash
  unfold hexValue? at h
  split_ifs at h with hdigit hsmall hlarge
  · exact space_le_of_isDigit hdigit
  · exact le_trans (by decide) hsmall.1
  · exact le_trans (by decide) hlarge.1

lemma Quoted.scan_eq {t : List Char} {u : List ℕ} (h : Quoted t u) :
    scan .inside t = .inside := by
  induction h with
  | nil => rfl
  | plain hquote hslash hcontrol _ ih =>
    rw [scan_cons, next_inside hquote hslash hcontrol]
    exact ih
  | short _ _ ih => exact ih
  | hex ha hb hc hd _ ih =>
    have hletter : (Mode.inside.next '\\').next 'u' = .inside := rfl
    simp only [scan_cons, hletter]
    rw [next_of_hexValue? ha, next_of_hexValue? hb, next_of_hexValue? hc, next_of_hexValue? hd]
    exact ih

lemma Member.Named.scan_written {m : Member} (h : m.Named) :
    scan .outside m.written = scan .outside m.text := by
  have hwritten : m.written = m.before ++ (['"'] ++ (m.name ++ (['"'] ++ (m.after ++ ([':'] ++
      m.text))))) := by
    simp [written]
  rw [hwritten, scan_append, scan_blanks h.before, scan_append, scan_append]
  show scan (scan .inside m.name) _ = _
  rw [h.name.scan_eq, scan_append]
  show scan .outside _ = _
  rw [scan_append, scan_blanks h.after]
  rfl

/-- A text of the grammar leaves the scanner outside of strings. -/
theorem Value.scan_eq {t : List Char} {v : Json} (h : Value t v) :
    scan .outside t = .outside := by
  induction h with
  | pad hbefore _ hafter ih =>
    rw [scan_append, scan_append, scan_blanks hbefore, ih, scan_blanks hafter]
  | null => decide
  | bool b => cases b <;> decide
  | number h => exact scan_of_bare h.mem_bare
  | string h =>
    rw [List.cons_append, scan_cons, scan_append]
    show scan (scan .inside _) ['"'] = .outside
    rw [h.scan_eq]
    rfl
  | blankArray h =>
    rw [List.cons_append, scan_cons, scan_append]
    show scan (scan .outside _) [']'] = .outside
    rw [scan_blanks h]
    decide
  | array _ ih =>
    rw [List.cons_append, scan_cons, scan_append]
    show scan (scan .outside _) [']'] = .outside
    rw [scan_intercalate fun t ht => ?_]
    · decide
    · obtain ⟨i, hi, rfl⟩ := List.mem_map.mp ht
      exact ih i hi
  | blankObject h =>
    rw [List.cons_append, scan_cons, scan_append]
    show scan (scan .outside _) ['\x7d'] = .outside
    rw [scan_blanks h]
    decide
  | object hnamed _ ih =>
    rw [List.cons_append, scan_cons, scan_append]
    show scan (scan .outside _) ['\x7d'] = .outside
    rw [scan_intercalate fun t ht => ?_]
    · decide
    · obtain ⟨m, hm, rfl⟩ := List.mem_map.mp ht
      exact (hnamed m hm).scan_written.trans (ih m hm)

end Json

end Arbor.Text
