import DistributedMarket.Ids
import DistributedMarket.Lib.ZeroPadded

/-!
Deterministic ids.

`SequentialIdGenerator` stands in for the real generator in tests, so its
ids have to be what tests assume of real ones: never the same twice, of the
same shape, and in the order they were minted. It counts each kind of id
separately, and what a run mints of one kind is the numbers from 1 on
(`issued_eq`), padded to the length of a real id. So the first two hold in
any run and the third as long as the numbers fit (`sequential_ids`).
-/

namespace DistributedMarket.SequentialIds

open Lib

/-- The keys of `_counters`. -/
inductive Kind | order | trade | account
  deriving DecidableEq, Repr

def accountPrefix : String := "acct_"

def orderPrefix : String := "ord_"

def tradePrefix : String := "trd_"

/-- `_counters`. -/
abbrev Counters := Kind → ℕ

def Counters.start : Counters := fun _ => 0

/-- `_next`. -/
def next (counters : Counters) (kind : Kind) (leading : String) (width : ℕ) : String × Counters :=
  let counters := Function.update counters kind (counters kind + 1)
  (leading ++ String.ofList (ZeroPadded.zfill width (counters kind)), counters)

def orderId (counters : Counters) : String × Counters :=
  next counters .order orderPrefix Ids.ulidLength

def tradeId (counters : Counters) : String × Counters :=
  next counters .trade tradePrefix Ids.ulidLength

def accountId (counters : Counters) : String × Counters := next counters .account accountPrefix 8

/-- The method that mints ids of a kind. -/
def mint : Kind → Counters → String × Counters
  | .order => orderId
  | .trade => tradeId
  | .account => accountId

/-- A sequence of calls, and what each returned. -/
def issue : Counters → List Kind → List (Kind × String)
  | _, [] => []
  | counters, kind :: calls =>
      let (id, counters) := mint kind counters
      (kind, id) :: issue counters calls

example : issue .start [.order, .account, .order] =
    [(.order, "ord_00000000000000000000000001"), (.account, "acct_00000001"),
      (.order, "ord_00000000000000000000000002")] := by decide

/-! ### The ids of one kind -/

def Kind.leading : Kind → String
  | .order => orderPrefix
  | .trade => tradePrefix
  | .account => accountPrefix

def Kind.width : Kind → ℕ
  | .order | .trade => Ids.ulidLength
  | .account => 8

/-- The `n`-th id of a kind. -/
def nth (kind : Kind) (n : ℕ) : String :=
  kind.leading ++ String.ofList (ZeroPadded.zfill kind.width n)

variable {counters : Counters} {kind kind' : Kind} {calls : List Kind} {n m : ℕ}

theorem mint_eq (kind : Kind) (counters : Counters) :
    mint kind counters =
      (nth kind (counters kind + 1), Function.update counters kind (counters kind + 1)) := by
  cases kind <;> simp [mint, orderId, tradeId, accountId, next, nth, Kind.leading, Kind.width]

theorem toList_nth (kind : Kind) (n : ℕ) :
    (nth kind n).toList = kind.leading.toList ++ ZeroPadded.zfill kind.width n := by
  rw [nth, String.toList_append, String.toList_ofList]

/-- An id tells its kind and its number. -/
theorem nth_inj : nth kind n = nth kind' m ↔ kind = kind' ∧ n = m := by
  refine ⟨fun h => ?_, fun ⟨hkind, hn⟩ => by rw [hkind, hn]⟩
  rw [← String.toList_inj, toList_nth, toList_nth] at h
  have hkind : kind = kind' := by
    have hhead := congrArg List.head? h
    cases kind <;> cases kind' <;>
      simp_all [Kind.leading, orderPrefix, tradePrefix, accountPrefix]
  subst hkind
  exact ⟨rfl, ZeroPadded.zfill_injective _ (List.append_cancel_left h)⟩

/-- The ids of one kind that a run mints. -/
def issued (counters : Counters) (calls : List Kind) (kind : Kind) : List String :=
  ((issue counters calls).filter fun minted => minted.1 = kind).map Prod.snd

/-- What is minted of one kind does not depend on the calls in between. -/
theorem issued_eq (counters : Counters) (calls : List Kind) (kind : Kind) :
    issued counters calls kind =
      (List.range' (counters kind + 1) (calls.count kind)).map (nth kind) := by
  induction calls generalizing counters with
  | nil => rfl
  | cons called calls ih =>
      rw [issued, issue, mint_eq]
      by_cases hkind : called = kind
      · subst hkind
        have hrest := ih (Function.update counters called (counters called + 1))
        rw [issued, Function.update_self] at hrest
        simp [List.range'_succ, hrest]
      · have hrest := ih (Function.update counters called (counters called + 1))
        rw [issued, Function.update_of_ne (Ne.symm hkind)] at hrest
        simp [hkind, hrest]

theorem mem_issue {id : String} (h : (kind, id) ∈ issue counters calls) :
    ∃ n, counters kind < n ∧ id = nth kind n := by
  have hid : id ∈ issued counters calls kind := by
    simp only [issued, List.mem_map, List.mem_filter]
    exact ⟨(kind, id), ⟨h, by simp⟩, rfl⟩
  rw [issued_eq, List.mem_map] at hid
  obtain ⟨n, hn, rfl⟩ := hid
  exact ⟨n, by have := List.mem_range'_1.mp hn; omega, rfl⟩

/-- No id is minted twice. -/
theorem nodup_issue (counters : Counters) (calls : List Kind) :
    ((issue counters calls).map Prod.snd).Nodup := by
  induction calls generalizing counters with
  | nil => exact List.nodup_nil
  | cons called calls ih =>
      rw [issue, mint_eq, List.map_cons, List.nodup_cons]
      refine ⟨fun hmem => ?_, ih _⟩
      obtain ⟨⟨kind, id⟩, hmem, heq⟩ := List.mem_map.mp hmem
      obtain ⟨n, hn, rfl⟩ := mem_issue hmem
      obtain ⟨rfl, rfl⟩ := nth_inj.mp heq
      rw [Function.update_self] at hn
      omega

/-! ### Their order -/

theorem nth_lt_iff (kind : Kind) :
    nth kind n < nth kind m ↔
      ZeroPadded.zfill kind.width n < ZeroPadded.zfill kind.width m := by
  rw [String.lt_iff_toList_lt, toList_nth, toList_nth, Positional.append_lt_append_iff rfl]
  simp

theorem width_pos (kind : Kind) : 0 < kind.width := by cases kind <;> decide

/-- The ids of a kind sort until one does not fit. -/
theorem pairwise_issued_iff (calls : List Kind) (kind : Kind) :
    (issued .start calls kind).Pairwise (· < ·) ↔ calls.count kind < 10 ^ kind.width := by
  have hwidth := width_pos kind
  rw [issued_eq]
  refine ⟨fun hpairwise => ?_, fun hfits => ?_⟩
  · by_contra hmany
    have hpow : 10 ≤ 10 ^ kind.width := Nat.le_self_pow hwidth.ne' 10
    have hsorted := List.pairwise_iff_getElem.mp hpairwise (10 ^ kind.width - 2)
      (10 ^ kind.width - 1) (by simp; omega) (by simp; omega) (by omega)
    rw [List.getElem_map, List.getElem_map, List.getElem_range', List.getElem_range',
      nth_lt_iff] at hsorted
    simp only [Counters.start, Nat.zero_add, Nat.one_mul] at hsorted
    rw [show 1 + (10 ^ kind.width - 2) = 10 ^ kind.width - 1 by omega,
      show 1 + (10 ^ kind.width - 1) = 10 ^ kind.width by omega] at hsorted
    exact lt_asymm hsorted (ZeroPadded.zfill_overflow hwidth)
  · rw [List.pairwise_map]
    refine (List.pairwise_lt_range').imp_of_mem ?_
    intro n m hn hm hlt
    have := List.mem_range'_1.mp hn
    have := List.mem_range'_1.mp hm
    rw [nth_lt_iff, ZeroPadded.zfill_lt_iff hwidth]
    · exact hlt
    · simp [Counters.start] at *
      omega
    · simp [Counters.start] at *
      omega

/-! ### Their shape -/

theorem symbol_mem_alphabet : ∀ digit,
    ZeroPadded.symbol digit ∈ Ids.alphabet ∧ ZeroPadded.symbol digit ∉ ['I', 'L', 'O', 'U'] := by
  decide

theorem crockford_zfill (h : n < 10 ^ 26) :
    Ids.Crockford (String.ofList (ZeroPadded.zfill 26 n)) := by
  have hmem : ∀ c ∈ ZeroPadded.zfill 26 n, ∃ digit, c = ZeroPadded.symbol digit := by
    intro c hc
    rw [ZeroPadded.zfill_eq_encode (by decide) h] at hc
    exact Positional.mem_encode hc
  constructor
  case length =>
    rw [← String.length_toList, String.toList_ofList]
    exact ZeroPadded.length_zfill (by decide) h
  case mem_alphabet =>
    intro c hc
    rw [String.toList_ofList] at hc
    obtain ⟨digit, rfl⟩ := hmem c hc
    exact (symbol_mem_alphabet digit).1
  case unambiguous =>
    intro c hc
    rw [String.toList_ofList] at hc
    obtain ⟨digit, rfl⟩ := hmem c hc
    exact (symbol_mem_alphabet digit).2

/-- What is minted for orders and trades before the numbers outgrow 26
digits is a prefix and 26 characters of the alphabet. -/
theorem crockford_of_mem {id : String} (hkind : kind ≠ .account)
    (hcount : calls.count kind < 10 ^ 26) (hid : id ∈ issued .start calls kind) :
    ∃ ulid, id = kind.leading ++ ulid ∧ Ids.Crockford ulid := by
  rw [issued_eq, List.mem_map] at hid
  obtain ⟨n, hn, rfl⟩ := hid
  have hfits : n < 10 ^ 26 := by
    have := List.mem_range'_1.mp hn
    simp only [Counters.start] at this
    omega
  have hwidth : kind.width = 26 := by
    cases kind with
    | order => rfl
    | trade => rfl
    | account => exact absurd rfl hkind
  exact ⟨_, by rw [nth, hwidth], crockford_zfill hfits⟩

/-- **The ids of a run.** None is minted twice, of whatever kind; those of
one kind sort in the order they were minted in exactly as long as their
numbers fit; and up to there those of orders and trades look like ULIDs. -/
theorem sequential_ids (calls : List Kind) :
    ((issue .start calls).map Prod.snd).Nodup ∧
      ∀ kind, ((issued .start calls kind).Pairwise (· < ·) ↔
          calls.count kind < 10 ^ kind.width) ∧
        (kind ≠ .account → calls.count kind < 10 ^ 26 → ∀ id ∈ issued .start calls kind,
          ∃ ulid, id = kind.leading ++ ulid ∧ Ids.Crockford ulid) :=
  ⟨nodup_issue .start calls, fun kind => ⟨pairwise_issued_iff calls kind,
    fun hkind hcount _ hid => crockford_of_mem hkind hcount hid⟩⟩

/-- Two orders around an account. -/
theorem sequential_ids_of_three :
    (issued .start [.order, .account, .order] .order).Pairwise (· < ·) ∧
      ∀ id ∈ issued .start [.order, .account, .order] .order,
        ∃ ulid, id = Kind.order.leading ++ ulid ∧ Ids.Crockford ulid := by
  obtain ⟨hsorted, hshape⟩ := (sequential_ids [.order, .account, .order]).2 .order
  have hcount : [Kind.order, .account, .order].count .order < 10 ^ 26 := by decide
  exact ⟨hsorted.mpr hcount, hshape (by decide) hcount⟩

end DistributedMarket.SequentialIds
