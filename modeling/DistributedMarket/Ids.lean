import DistributedMarket.Lib.Positional
import Mathlib.Data.Bool.AllAny
import Mathlib.Data.String.Basic

/-!
Identifiers: ULIDs, 26 characters of Crockford base32 over a millisecond
timestamp and 80 bits of randomness.

The encoder pushes the digits it gets from repeated division, the least
significant first, and reverses them at the end. That is positional notation
of a fixed width over an alphabet whose symbols increase, gaps and all, so
ids sort by timestamp first and by randomness second.
-/

namespace DistributedMarket.Ids

open Lib

/-- Crockford base32: no I, L, O or U. -/
def alphabet : List Char := "0123456789ABCDEFGHJKMNPQRSTVWXYZ".toList

def ulidLength : ℕ := 26

def timestampChars : ℕ := 10

def randomBits : ℕ := 80

theorem length_alphabet : alphabet.length = 32 := by decide

/-- `_ALPHABET[index]`. -/
def symbol (index : Fin 32) : Char := alphabet.get (index.cast length_alphabet.symm)

/-- The loop of the encoder, with the characters it has appended so far. -/
def encodeLoop : ℕ → ℤ → List Char → List Char
  | 0, _, chars => chars
  | length + 1, value, chars =>
      let index := Int.fmod value 32
      encodeLoop length (Int.fdiv value 32) (chars ++ [symbol (Fin.ofNat 32 index.toNat)])

def encode (value : ℤ) (length : ℕ) : String := String.ofList (encodeLoop length value []).reverse

/-- A ULID for the instant `timestampMs`; `drawn` is what
`secrets.randbits` returns when no randomness is given. -/
def makeUlid (timestampMs drawn : ℤ) (randomness : Option ℤ) : String :=
  let entropy := randomness.getD drawn
  encode timestampMs timestampChars ++ encode entropy (ulidLength - timestampChars)

example : makeUlid 1767225600000 0 (some 33) = "01KDVDNA000000000000000011" := by decide

/-! ### The encoder is positional notation -/

theorem symbol_strictMono : StrictMono symbol := by
  decide

theorem symbol_mem (index : Fin 32) : symbol index ∈ alphabet := List.get_mem alphabet _

theorem index_eq_digit (value : ℤ) :
    Fin.ofNat 32 (Int.fmod value 32).toNat = Positional.digit 32 value := by
  have hlow := Int.emod_nonneg value (by decide : (32 : ℤ) ≠ 0)
  have hhigh := Int.emod_lt_of_pos value (by decide : (0 : ℤ) < 32)
  ext1
  rw [Int.fmod_eq_emod_of_nonneg _ (by decide), Fin.val_ofNat]
  apply Nat.mod_eq_of_lt
  omega

/-- Reversed, the characters are the digits of the value and then those that
were there already. -/
theorem encodeLoop_eq (length : ℕ) (value : ℤ) (chars : List Char) :
    (encodeLoop length value chars).reverse =
      Positional.encode symbol length value ++ chars.reverse := by
  induction length generalizing value chars with
  | zero => rfl
  | succ length ih =>
      rw [encodeLoop, ih, index_eq_digit, Positional.encode,
        Int.fdiv_eq_ediv_of_nonneg _ (by decide)]
      simp

theorem toList_encode (value : ℤ) (length : ℕ) :
    (encode value length).toList = Positional.encode symbol length value := by
  rw [encode, String.toList_ofList, encodeLoop_eq, List.reverse_nil, List.append_nil]

theorem toList_makeUlid (timestampMs drawn : ℤ) (randomness : Option ℤ) :
    (makeUlid timestampMs drawn randomness).toList =
      Positional.encode symbol 10 timestampMs ++
        Positional.encode symbol 16 (randomness.getD drawn) := by
  rw [makeUlid, String.toList_append, toList_encode, toList_encode]
  rfl

/-! ### Ids -/

/-- 26 characters of the alphabet, none of them ambiguous. -/
structure Crockford (id : String) : Prop where
  length : id.length = 26
  mem_alphabet : ∀ c ∈ id.toList, c ∈ alphabet
  unambiguous : ∀ c ∈ id.toList, c ∉ ['I', 'L', 'O', 'U']

theorem makeUlid_crockford (timestampMs drawn : ℤ) (randomness : Option ℤ) :
    Crockford (makeUlid timestampMs drawn randomness) := by
  have hmem : ∀ c ∈ (makeUlid timestampMs drawn randomness).toList, c ∈ alphabet := by
    intro c hc
    rw [toList_makeUlid] at hc
    rcases List.mem_append.mp hc with htimestamp | hentropy
    · obtain ⟨index, rfl⟩ := Positional.mem_encode htimestamp
      exact symbol_mem index
    · obtain ⟨index, rfl⟩ := Positional.mem_encode hentropy
      exact symbol_mem index
  have hunambiguous : ∀ c ∈ alphabet, c ∉ ['I', 'L', 'O', 'U'] :=
    List.all_iff_forall_prop.mp (by decide)
  refine ⟨?_, hmem, fun c hc => hunambiguous c (hmem c hc)⟩
  rw [← String.length_toList, toList_makeUlid]
  simp

/-- **Ids sort by timestamp, then by entropy, and collide on equal inputs
only.** -/
theorem ulids_sort_chronologically {m₁ m₂ drawn₁ drawn₂ : ℤ} {given₁ given₂ : Option ℤ}
    (hm₁ : 0 ≤ m₁ ∧ m₁ < 32 ^ 10) (hm₂ : 0 ≤ m₂ ∧ m₂ < 32 ^ 10)
    (hr₁ : 0 ≤ given₁.getD drawn₁ ∧ given₁.getD drawn₁ < 2 ^ randomBits)
    (hr₂ : 0 ≤ given₂.getD drawn₂ ∧ given₂.getD drawn₂ < 2 ^ randomBits) :
    Crockford (makeUlid m₁ drawn₁ given₁) ∧ Crockford (makeUlid m₂ drawn₂ given₂) ∧
      (makeUlid m₁ drawn₁ given₁ < makeUlid m₂ drawn₂ given₂ ↔
        m₁ < m₂ ∨ (m₁ = m₂ ∧ given₁.getD drawn₁ < given₂.getD drawn₂)) ∧
      (makeUlid m₁ drawn₁ given₁ = makeUlid m₂ drawn₂ given₂ ↔
        m₁ = m₂ ∧ given₁.getD drawn₁ = given₂.getD drawn₂) := by
  have hbits : (2 : ℤ) ^ randomBits = (32 : ℕ) ^ 16 := by decide
  rw [hbits] at hr₁ hr₂
  refine ⟨makeUlid_crockford m₁ drawn₁ given₁, makeUlid_crockford m₂ drawn₂ given₂, ?_, ?_⟩
  · rw [String.lt_iff_toList_lt, toList_makeUlid, toList_makeUlid,
      Positional.append_lt_append_iff (by simp), Positional.encode_lt_iff symbol_strictMono hm₁ hm₂,
      Positional.encode_inj symbol_strictMono.injective hm₁ hm₂,
      Positional.encode_lt_iff symbol_strictMono hr₁ hr₂]
  · refine ⟨fun h => ?_, ?_⟩
    · rw [← String.toList_inj, toList_makeUlid, toList_makeUlid] at h
      obtain ⟨htimestamp, hentropy⟩ := List.append_inj h (by simp)
      exact ⟨(Positional.encode_inj symbol_strictMono.injective hm₁ hm₂).mp htimestamp,
        (Positional.encode_inj symbol_strictMono.injective hr₁ hr₂).mp hentropy⟩
    · rintro ⟨rfl, hentropy⟩
      rw [makeUlid, makeUlid, hentropy]

/-- The largest entropy of one millisecond comes before the smallest of the
next. -/
theorem ulids_sort_one_ms_apart :
    makeUlid 1767225600000 (2 ^ 80 - 1) none < makeUlid 1767225600001 7 (some 0) :=
  (ulids_sort_chronologically (by decide) (by decide) (by decide) (by decide)).2.2.1.mpr
    (Or.inl (by decide))

end DistributedMarket.Ids
