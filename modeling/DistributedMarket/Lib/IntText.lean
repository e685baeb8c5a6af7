import DistributedMarket.Lib.DecimalText
import Mathlib.Data.List.TakeWhile

/-!
The constructor `int` of Python on a string.

Decimal digits and white space of any script are brought to ASCII, and what
remains has to be a literal of the documented grammar: an optional sign and
digits with single underscores among them, inside white space. A `Literal`
is the text taken apart, and `readChars_eq_ok_iff` says that the reader
accepts the literals with as many digits as the interpreter allows, each
for the number it spells. The same bound holds the other way: only a
`Printable` integer has a text.
-/

namespace Lib.IntText

/-- ASCII white space. -/
def isBlank (c : Char) : Bool := (9 ≤ c.toNat && c.toNat ≤ 13) || c == ' '

def trim (cs : List Char) : List Char :=
  ((cs.dropWhile isBlank).reverse.dropWhile isBlank).reverse

/-- The digits beyond which the interpreter refuses to convert a string to
an integer or an integer to a string. -/
def maxStrDigits : ℕ := 4300

/-- The integers `str` converts. -/
def Printable (n : ℤ) : Prop := n.natAbs < 10 ^ maxStrDigits

instance (n : ℤ) : Decidable (Printable n) := inferInstanceAs (Decidable (_ < _))

theorem printable_of_lt {n : ℤ} (h : n.natAbs < 10 ^ 9) : Printable n :=
  h.trans_le (Nat.pow_le_pow_right (by decide) (by decide))

inductive Refusal | literal | digits (count : ℕ)
  deriving DecidableEq, Repr

/-- The literal is judged before its digits are counted, as from Python 3.12
on; 3.11 refuses a text for its digits even if something else follows them. -/
def readChars (cs : List Char) : Except Refusal ℤ :=
  let (negative, body) := Decimal.splitSign (trim cs)
  let groups := body.splitOn '_'
  if groups.all fun group => !group.isEmpty && group.all Char.isDigit then
    if maxStrDigits < groups.flatten.length then .error (.digits groups.flatten.length)
    else
      let magnitude : ℤ := Nat.ofDigitChars 10 groups.flatten 0
      .ok (if negative then -magnitude else magnitude)
  else .error .literal

/-- `int(text)`. -/
def readInt (text : String) : Except Refusal ℤ :=
  match text.toList.mapM Decimal.asciiChar with
  | some cs => readChars cs
  | none => .error .literal

example : readInt "\t-1_000 " = .ok (-1000) := by decide
example : readInt "1__0" = .error .literal := by decide

/-! ### The grammar -/

inductive Sign | none | plus | minus

def Sign.chars : Sign → List Char
  | .none => []
  | .plus => ['+']
  | .minus => ['-']

def Sign.negative : Sign → Bool
  | .none | .plus => false
  | .minus => true

/-- A literal of the grammar; the groups are the digits between its
underscores. -/
structure Literal where
  before : List Char
  sign : Sign
  groups : List (List Char)
  after : List Char
  blank : ∀ c ∈ before ++ after, isBlank c = true
  groups_ne_nil : groups ≠ []
  group_ne_nil : ∀ group ∈ groups, group ≠ []
  digits : ∀ group ∈ groups, ∀ c ∈ group, c.isDigit = true

namespace Literal

def body (l : Literal) : List Char := ['_'].intercalate l.groups

def chars (l : Literal) : List Char := l.before ++ (l.sign.chars ++ l.body) ++ l.after

/-- The number a literal spells. -/
def value (l : Literal) : ℤ :=
  let magnitude : ℤ := Nat.ofDigitChars 10 l.groups.flatten 0
  if l.sign.negative then -magnitude else magnitude

end Literal

/-- The text is a literal of `n`, with no more digits than are allowed. -/
def Spells (text : String) (n : ℤ) : Prop :=
  ∃ l : Literal, text.toList.mapM Decimal.asciiChar = some l.chars ∧
    l.groups.flatten.length ≤ maxStrDigits ∧ l.value = n

/-! ### White space and signs -/

theorem trim_split (cs : List Char) :
    ∃ before after, cs = before ++ trim cs ++ after ∧ ∀ c ∈ before ++ after, isBlank c = true := by
  refine ⟨cs.takeWhile isBlank, ((cs.dropWhile isBlank).reverse.takeWhile isBlank).reverse, ?_, ?_⟩
  · unfold trim
    rw [List.append_assoc, ← List.reverse_append, List.takeWhile_append_dropWhile,
      List.reverse_reverse, List.takeWhile_append_dropWhile]
  · intro c hc
    rcases List.mem_append.mp hc with hfront | hback
    · exact List.mem_takeWhile_imp hfront
    · exact List.mem_takeWhile_imp (List.mem_reverse.mp hback)

theorem dropWhile_blank_append {blank rest : List Char} (hblank : ∀ c ∈ blank, isBlank c = true)
    (hrest : ∀ c ∈ rest.head?, isBlank c = false) : (blank ++ rest).dropWhile isBlank = rest := by
  rw [List.dropWhile_append_of_pos hblank]
  cases rest with
  | nil => rfl
  | cons c cs => exact List.dropWhile_cons_of_neg (by simp [hrest c rfl])

theorem trim_append {before body after : List Char}
    (hblank : ∀ c ∈ before ++ after, isBlank c = true) (hne : body ≠ [])
    (hbody : ∀ c ∈ body, isBlank c = false) : trim (before ++ body ++ after) = body := by
  have hfront : ∀ c ∈ (body ++ after).head?, isBlank c = false := by
    intro c hc
    rw [List.head?_append_of_ne_nil body hne] at hc
    exact hbody c (List.mem_of_mem_head? hc)
  have hback : ∀ c ∈ body.reverse.head?, isBlank c = false := fun c hc =>
    hbody c (List.mem_reverse.mp (List.mem_of_mem_head? hc))
  unfold trim
  rw [List.append_assoc, dropWhile_blank_append (fun c hc => hblank c (by simp [hc])) hfront,
    List.reverse_append, dropWhile_blank_append (fun c hc => hblank c (by simp [List.mem_reverse.mp hc])) hback,
    List.reverse_reverse]

theorem splitSign_split (cs : List Char) :
    ∃ sign : Sign, (Decimal.splitSign cs).1 = sign.negative ∧
      cs = sign.chars ++ (Decimal.splitSign cs).2 := by
  unfold Decimal.splitSign
  split
  · exact ⟨.minus, rfl, rfl⟩
  · exact ⟨.plus, rfl, rfl⟩
  · exact ⟨.none, rfl, rfl⟩

/-! ### Groups of digits -/

theorem isDigit_toNat {c : Char} (h : c.isDigit = true) : 48 ≤ c.toNat ∧ c.toNat ≤ 57 := by
  simpa [Char.isDigit, UInt32.le_iff_toNat_le] using h

theorem isBlank_of_isDigit {c : Char} (h : c.isDigit = true) : isBlank c = false := by
  obtain ⟨hlow, -⟩ := isDigit_toNat h
  have hspace : c ≠ ' ' := by
    rintro rfl
    contradiction
  simp [isBlank, hspace]
  omega

namespace Literal

variable (l : Literal)

theorem body_eq_cons : ∃ c cs, l.body = c :: cs ∧ c.isDigit = true := by
  obtain ⟨group, groups, hgroups⟩ := List.exists_cons_of_ne_nil l.groups_ne_nil
  have hmem : group ∈ l.groups := hgroups ▸ List.mem_cons_self
  obtain ⟨c, cs, rfl⟩ := List.exists_cons_of_ne_nil (l.group_ne_nil group hmem)
  have hc : c.isDigit = true := l.digits _ hmem c List.mem_cons_self
  unfold body
  rw [hgroups]
  cases groups with
  | nil => exact ⟨c, cs, by simp, hc⟩
  | cons next groups =>
      rw [List.intercalate_cons_cons]
      exact ⟨c, _, rfl, hc⟩

theorem mem_intercalate {sep c : Char} {groups : List (List Char)}
    (h : c ∈ [sep].intercalate groups) : c = sep ∨ ∃ group ∈ groups, c ∈ group := by
  induction groups with
  | nil => simp at h
  | cons group groups ih =>
      cases groups with
      | nil => exact Or.inr ⟨group, List.mem_cons_self, by simpa using h⟩
      | cons next groups =>
          rw [List.intercalate_cons_cons, List.mem_append, List.mem_append,
            List.mem_singleton] at h
          rcases h with (hgroup | hsep) | hrest
          · exact Or.inr ⟨group, List.mem_cons_self, hgroup⟩
          · exact Or.inl hsep
          · refine (ih hrest).imp_right ?_
            rintro ⟨group', hmem, hc⟩
            exact ⟨group', List.mem_cons_of_mem group hmem, hc⟩

theorem splitOn_body : l.body.splitOn '_' = l.groups := by
  refine List.splitOn_intercalate '_' (fun group hmem hunderscore => ?_) l.groups_ne_nil
  have hdigit := l.digits group hmem '_' hunderscore
  contradiction

theorem not_blank : ∀ c ∈ l.sign.chars ++ l.body, isBlank c = false := by
  intro c hc
  rcases List.mem_append.mp hc with hsign | hbody
  · cases hsigned : l.sign with
    | none => simp [hsigned, Sign.chars] at hsign
    | plus =>
        rw [hsigned] at hsign
        obtain rfl := List.mem_singleton.mp hsign
        rfl
    | minus =>
        rw [hsigned] at hsign
        obtain rfl := List.mem_singleton.mp hsign
        rfl
  · rcases mem_intercalate hbody with rfl | ⟨group, hmem, hc⟩
    · rfl
    · exact isBlank_of_isDigit (l.digits group hmem c hc)

theorem splitSign_body :
    Decimal.splitSign (l.sign.chars ++ l.body) = (l.sign.negative, l.body) := by
  cases l.sign with
  | none =>
      obtain ⟨c, cs, hbody, hc⟩ := l.body_eq_cons
      rw [hbody]
      exact Decimal.splitSign_of_digit hc
  | plus => rfl
  | minus => rfl

/-- A literal is read as the number it spells, if it is not too long. -/
theorem readChars_chars : readChars l.chars =
    if maxStrDigits < l.groups.flatten.length then .error (.digits l.groups.flatten.length)
    else .ok l.value := by
  have hgroups : (l.groups.all fun group => !group.isEmpty && group.all Char.isDigit) = true := by
    simp only [List.all_eq_true, Bool.and_eq_true, Bool.not_eq_true', List.isEmpty_eq_false_iff]
    exact fun group hmem => ⟨l.group_ne_nil group hmem, l.digits group hmem⟩
  have hne : l.sign.chars ++ l.body ≠ [] := by
    obtain ⟨c, cs, hbody, -⟩ := l.body_eq_cons
    simp [hbody]
  unfold readChars chars
  rw [trim_append l.blank hne l.not_blank, l.splitSign_body]
  simp only [l.splitOn_body, hgroups, if_true]
  rfl

end Literal

/-- What is read is a literal. -/
theorem literal_of_readChars {cs : List Char} {n : ℤ} (h : readChars cs = .ok n) :
    ∃ l : Literal, cs = l.chars := by
  obtain ⟨before, after, hcs, hblank⟩ := trim_split cs
  obtain ⟨sign, hnegative, htrim⟩ := splitSign_split (trim cs)
  unfold readChars at h
  generalize Decimal.splitSign (trim cs) = split at h hnegative htrim
  obtain ⟨negative, body⟩ := split
  by_cases hgroups : ((body.splitOn '_').all fun group =>
      !group.isEmpty && group.all Char.isDigit) = true
  · simp only [List.all_eq_true, Bool.and_eq_true, Bool.not_eq_true',
      List.isEmpty_eq_false_iff] at hgroups
    refine ⟨⟨before, sign, body.splitOn '_', after, hblank, List.splitOn_ne_nil _ _,
      fun group hmem => (hgroups group hmem).1, fun group hmem => (hgroups group hmem).2⟩, ?_⟩
    rw [hcs, htrim]
    unfold Literal.chars Literal.body
    rw [List.intercalate_splitOn]
  · simp [hgroups] at h

/-- **The literals are what `int` accepts.** -/
theorem readChars_eq_ok_iff {cs : List Char} {n : ℤ} :
    readChars cs = .ok n ↔
      ∃ l : Literal, cs = l.chars ∧ l.groups.flatten.length ≤ maxStrDigits ∧ l.value = n := by
  refine ⟨fun h => ?_, ?_⟩
  · obtain ⟨l, rfl⟩ := literal_of_readChars h
    rw [l.readChars_chars] at h
    split at h
    · contradiction
    · rename_i hshort
      exact ⟨l, rfl, not_lt.mp hshort, Except.ok.inj h⟩
  · rintro ⟨l, rfl, hshort, rfl⟩
    rw [l.readChars_chars, if_neg (not_lt.mpr hshort)]

theorem readInt_eq_ok_iff {text : String} {n : ℤ} : readInt text = .ok n ↔ Spells text n := by
  unfold readInt Spells
  cases h : text.toList.mapM Decimal.asciiChar with
  | none => simp
  | some cs => simp [readChars_eq_ok_iff]

/-- A text spells at most one number. -/
theorem Spells.unique {text : String} {m n : ℤ} (hm : Spells text m) (hn : Spells text n) :
    m = n := by
  rw [← readInt_eq_ok_iff] at hm hn
  exact Except.ok.inj (hm.symm.trans hn)

end Lib.IntText
