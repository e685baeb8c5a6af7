import Mathlib.Data.List.Forall2

/-!
Dict comprehensions whose values can fail.

`comprehension f entries` converts the entries of a dict one after the other
and gives up at the first that fails. It succeeds with `out` when every
entry converts and `out` holds the results under the old keys
(`comprehension_eq_ok`), and its error is that of the first entry that does
not convert (`comprehension_eq_error`). What is found under a key afterwards
is what the entry found under it before converts to, whether or not the keys
are distinct, and the keys are the old ones in the old order.
-/

namespace Lib

variable {κ α β ε : Type*}

/-- The entries with their values converted in turn. -/
def comprehension (f : κ → α → Except ε β) : List (κ × α) → Except ε (List (κ × β))
  | [] => .ok []
  | (key, a) :: entries =>
      match f key a with
      | .error err => .error err
      | .ok b =>
          match comprehension f entries with
          | .error err => .error err
          | .ok out => .ok ((key, b) :: out)

variable {f : κ → α → Except ε β} {entries : List (κ × α)} {out : List (κ × β)}

theorem comprehension_cons_eq_ok {key : κ} {a : α} :
    comprehension f ((key, a) :: entries) = .ok out ↔
      ∃ b rest, f key a = .ok b ∧ comprehension f entries = .ok rest ∧ out = (key, b) :: rest := by
  rw [comprehension]
  cases f key a with
  | error err => simp
  | ok b =>
      cases comprehension f entries with
      | error err => simp
      | ok rest => simp [@eq_comm _ out]

theorem comprehension_eq_ok :
    comprehension f entries = .ok out ↔
      List.Forall₂ (fun entry result => result.1 = entry.1 ∧ f entry.1 entry.2 = .ok result.2)
        entries out := by
  induction entries generalizing out with
  | nil =>
      rw [comprehension, List.forall₂_nil_left_iff, Except.ok.injEq, eq_comm]
  | cons entry entries ih =>
      obtain ⟨key, a⟩ := entry
      rw [comprehension_cons_eq_ok, List.forall₂_cons_left_iff]
      refine ⟨?_, ?_⟩
      · rintro ⟨b, rest, hb, hrest, rfl⟩
        exact ⟨(key, b), rest, ⟨rfl, hb⟩, ih.mp hrest, rfl⟩
      · rintro ⟨⟨key', b⟩, rest, ⟨hkey, hb⟩, hrest, rfl⟩
        obtain rfl : key' = key := hkey
        exact ⟨b, rest, hb, ih.mpr hrest, rfl⟩

theorem comprehension_eq_error {err : ε} :
    comprehension f entries = .error err ↔
      ∃ before key a after, entries = before ++ (key, a) :: after ∧
        (∀ entry ∈ before, ∃ b, f entry.1 entry.2 = .ok b) ∧ f key a = .error err := by
  induction entries with
  | nil => simp [comprehension]
  | cons entry entries ih =>
      obtain ⟨key, a⟩ := entry
      rw [comprehension]
      cases hb : f key a with
      | error err' =>
          refine ⟨?_, ?_⟩
          · rintro ⟨⟩
            exact ⟨[], key, a, entries, rfl, by simp, hb⟩
          · rintro ⟨before, key', a', after, hsplit, hbefore, herr⟩
            cases before with
            | nil =>
                cases hsplit
                rw [hb] at herr
                rw [Except.error.inj herr]
            | cons first before =>
                obtain ⟨b, hok⟩ := hbefore first List.mem_cons_self
                rw [← (List.cons.inj hsplit).1, hb] at hok
                contradiction
      | ok b =>
          have htail : (match comprehension f entries with
              | .error err => .error err
              | .ok out => .ok ((key, b) :: out)) = (.error err : Except ε (List (κ × β))) ↔
                comprehension f entries = .error err := by
            cases comprehension f entries <;> simp
          rw [htail, ih]
          refine ⟨?_, ?_⟩
          · rintro ⟨before, key', a', after, rfl, hbefore, herr⟩
            refine ⟨(key, a) :: before, key', a', after, rfl, ?_, herr⟩
            intro entry hentry
            rcases List.mem_cons.mp hentry with rfl | hentry
            · exact ⟨b, hb⟩
            · exact hbefore entry hentry
          · rintro ⟨before, key', a', after, hsplit, hbefore, herr⟩
            cases before with
            | nil =>
                cases hsplit
                rw [hb] at herr
                contradiction
            | cons first before =>
                refine ⟨before, key', a', after, (List.cons.inj hsplit).2, ?_, herr⟩
                intro entry hentry
                exact hbefore entry (List.mem_cons_of_mem _ hentry)

theorem comprehension_isOk_iff :
    (∃ out, comprehension f entries = .ok out) ↔
      ∀ entry ∈ entries, ∃ b, f entry.1 entry.2 = .ok b := by
  refine ⟨?_, fun hall => ?_⟩
  · rintro ⟨out, h⟩
    have hforall := comprehension_eq_ok.mp h
    clear h
    induction hforall with
    | nil => simp
    | cons hentry hrest ih => exact List.forall_mem_cons.mpr ⟨⟨_, hentry.2⟩, ih⟩
  · cases h : comprehension f entries with
    | ok out => exact ⟨out, rfl⟩
    | error err =>
        obtain ⟨before, key, a, after, rfl, -, herr⟩ := comprehension_eq_error.mp h
        obtain ⟨b, hb⟩ := hall (key, a) (by simp)
        rw [herr] at hb
        contradiction

theorem keys_comprehension (h : comprehension f entries = .ok out) :
    out.map Prod.fst = entries.map Prod.fst := by
  have hall := comprehension_eq_ok.mp h
  induction hall with
  | nil => rfl
  | @cons entry result entries out hentry hrest ih =>
      rw [List.map_cons, List.map_cons, hentry.1, ih (comprehension_eq_ok.mpr hrest)]

/-- What is found under a key is what was found there, converted. -/
theorem lookup_comprehension [BEq κ] [LawfulBEq κ] (h : comprehension f entries = .ok out)
    {key : κ} {b : β} :
    out.lookup key = some b ↔ ∃ a, entries.lookup key = some a ∧ f key a = .ok b := by
  have hall := comprehension_eq_ok.mp h
  induction hall with
  | nil => simp
  | @cons entry result entries out hentry hrest ih =>
      obtain ⟨key', a⟩ := entry
      obtain ⟨key'', b'⟩ := result
      obtain ⟨rfl, hb⟩ : key'' = key' ∧ f key' a = .ok b' := hentry
      rw [List.lookup_cons, List.lookup_cons]
      cases heq : key == key'' with
      | true =>
          obtain rfl := eq_of_beq heq
          simp [hb]
      | false => exact ih (comprehension_eq_ok.mpr hrest)

end Lib
