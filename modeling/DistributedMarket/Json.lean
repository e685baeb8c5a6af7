import DistributedMarket.Lib.Decimal

/-!
The values `json.load` produces, the exceptions the library raises, and the
few operations of Python on such values that the code applies to data whose
type it never checks.

A record read back from the journal is an object whose fields may hold
anything. Where the code compares such a field, tests it for truth or looks
it up, the definitions here say what Python does with the value it finds.
A dict is the list of its entries, and a lookup finds the first one.
-/

namespace DistributedMarket

open Lib

/-- A float, as the rational it denotes. `json.load` also reads `NaN` and
the two infinities. -/
inductive PyFloat
  | finite (value : ℚ)
  | infinity (negative : Bool)
  | nan
  deriving DecidableEq, Repr

inductive Json
  | null
  | bool (value : Bool)
  | int (value : ℤ)
  | float (value : PyFloat)
  | str (value : String)
  | list (items : List Json)
  | dict (entries : List (String × Json))

abbrev Dict := List (String × Json)

/-- A piece of an f-string: text, `{value}` or `{value!r}`. -/
inductive Piece
  | text (text : String)
  | shown (value : Json)
  | quoted (value : Json)

instance : Coe String Piece := ⟨.text⟩
instance : Coe ℤ Piece := ⟨fun n => .shown (.int n)⟩
instance : Coe Json Piece := ⟨.shown⟩

abbrev Message := List Piece

/-- The exceptions of the library. The rendering of a message is left to
Python; what it shows is kept. -/
inductive PyErr
  | ValueError (message : Message)
  | KeyError (key : String)
  | TypeError (left right : Json)
  | decimal (signal : Decimal.Signal)

theorem bind_eq_ok {ε α β : Type} {x : Except ε α} {f : α → Except ε β} {b : β} :
    x >>= f = .ok b ↔ ∃ a, x = .ok a ∧ f a = .ok b := by
  cases x with
  | error err => simp [Bind.bind, Except.bind]
  | ok a => simp [Bind.bind, Except.bind]

/-- The call raised a `ValueError`, whatever its message. -/
def RaisesValueError {α : Type*} (result : Except PyErr α) : Prop :=
  ∃ message, result = .error (.ValueError message)

/-! ### Numbers -/

/-- The number a value is for `==` and `<=`; `True` and `False` are 1
and 0. -/
def Json.num? : Json → Option PyFloat
  | .bool b => some (.finite b.toNat)
  | .int n => some (.finite n)
  | .float x => some x
  | _ => none

/-- `<=` of numbers. A NaN is not ordered. -/
def PyFloat.le : PyFloat → PyFloat → Bool
  | .nan, _ | _, .nan => false
  | .infinity true, _ | _, .infinity false => true
  | .infinity false, _ | _, .infinity true => false
  | .finite a, .finite b => decide (a ≤ b)

/-- `a <= b` where one of the two is known to be a number. -/
def Json.le (a b : Json) : Except PyErr Bool :=
  match a.num?, b.num? with
  | some x, some y => .ok (x.le y)
  | _, _ => .error (.TypeError a b)

@[simp] theorem Json.le_int (a b : ℤ) : Json.le (.int a) (.int b) = .ok (decide (a ≤ b)) := by
  simp [Json.le, Json.num?, PyFloat.le]

/-! ### Truth, lookup and equality -/

/-- `value is None`. -/
def Json.isNone : Json → Bool
  | .null => true
  | _ => false

/-- `bool(value)`. -/
def Json.truthy : Json → Bool
  | .null => false
  | .bool b => b
  | .int n => n != 0
  | .float x => x != .finite 0
  | .str s => s != ""
  | .list items => !items.isEmpty
  | .dict entries => !entries.isEmpty

/-- `raw[key]`. -/
def Dict.item (raw : Dict) (key : String) : Except PyErr Json :=
  match raw.lookup key with
  | some value => .ok value
  | none => .error (.KeyError key)

/-- `raw.get(key)`. -/
def Dict.get (raw : Dict) (key : String) : Json := (raw.lookup key).getD .null

theorem Dict.item_eq_ok {raw : Dict} {key : String} {value : Json} :
    raw.item key = .ok value ↔ raw.lookup key = some value := by
  unfold Dict.item
  cases raw.lookup key <;> simp

theorem Dict.get_of_lookup {raw : Dict} {key : String} {value : Json}
    (h : raw.lookup key = some value) : raw.get key = value := by
  rw [Dict.get, h, Option.getD_some]

theorem Dict.lookup_eq_none {d : Dict} {key : String} (h : key ∉ d.map Prod.fst) :
    d.lookup key = none := by
  rw [List.lookup_eq_none_iff]
  intro entry hentry
  rw [bne_iff_ne]
  rintro rfl
  exact h (List.mem_map_of_mem hentry)

/-- `None`, an integer or a string. -/
def Json.Scalar : Json → Prop
  | .null | .int _ | .str _ => True
  | _ => False

/-- `a == b`. Numbers are equal across `int`, `float` and `bool`, a NaN to
nothing, and dicts whatever the order of their keys. -/
inductive Json.Equal : Json → Json → Prop
  | null : Equal .null .null
  | num {a b : Json} {x : PyFloat} (ha : a.num? = some x) (hb : b.num? = some x)
      (hx : x ≠ .nan) : Equal a b
  | str (s : String) : Equal (.str s) (.str s)
  | list {xs ys : List Json} (h : List.Forall₂ Equal xs ys) : Equal (.list xs) (.list ys)
  | dict {d e : Dict} (h : ∀ key, Option.Rel Equal (d.lookup key) (e.lookup key)) :
      Equal (.dict d) (.dict e)

theorem Json.Equal.int_inj {a b : ℤ} (h : Json.Equal (.int a) (.int b)) : a = b := by
  cases h with
  | num ha hb hx =>
      have hab : PyFloat.finite a = PyFloat.finite b := Option.some.inj (ha.trans hb.symm)
      exact_mod_cast PyFloat.finite.inj hab

theorem Json.Equal.str_inj {a b : String} (h : Json.Equal (.str a) (.str b)) : a = b := by
  cases h with
  | num ha hb hx => contradiction
  | str s => rfl

/-- Equal dicts have equal values under a key. -/
theorem Json.Equal.lookup {d e : Dict} (h : Json.Equal (.dict d) (.dict e)) (key : String) :
    Option.Rel Json.Equal (d.lookup key) (e.lookup key) := by
  cases h with
  | num ha hb hx => contradiction
  | dict h => exact h key

theorem Json.Equal.of_lookup {d e : Dict} {a b : Json} (h : Json.Equal (.dict d) (.dict e))
    (key : String) (ha : d.lookup key = some a)
    (hb : e.lookup key = some b) : Json.Equal a b := by
  have hrel := h.lookup key
  rw [ha, hb] at hrel
  cases hrel with
  | some hab => exact hab

theorem Json.Equal.eq_of_scalar {a b : Json} (ha : a.Scalar) (hb : b.Scalar)
    (h : Json.Equal a b) : a = b := by
  cases h with
  | null => rfl
  | str s => rfl
  | list h => exact ha.elim
  | dict h => exact ha.elim
  | @num a b x hx hy hnan =>
      cases a with
      | int m =>
          cases b with
          | int n => rw [Json.Equal.int_inj (.num hx hy hnan)]
          | _ => first | exact hb.elim | cases hy
      | _ => first | exact ha.elim | cases hx

/-- Equal dicts of scalars with the same keys in the same order are the
same dict. -/
theorem Dict.eq_of_equal {d e : Dict} (hkeys : d.map Prod.fst = e.map Prod.fst)
    (hnodup : (d.map Prod.fst).Nodup) (hd : ∀ entry ∈ d, entry.2.Scalar)
    (he : ∀ entry ∈ e, entry.2.Scalar) (h : Json.Equal (.dict d) (.dict e)) : d = e := by
  induction d generalizing e with
  | nil => exact (List.map_eq_nil_iff.mp hkeys.symm).symm
  | cons entry d ih =>
      cases e with
      | nil => simp at hkeys
      | cons entry' e =>
          obtain ⟨key, v⟩ := entry
          obtain ⟨key', w⟩ := entry'
          simp only [List.map_cons, List.cons.injEq] at hkeys
          obtain ⟨rfl, hkeys⟩ := hkeys
          simp only [List.map_cons, List.nodup_cons] at hnodup
          have hhead : v = w := by
            apply Json.Equal.eq_of_scalar (hd _ List.mem_cons_self) (he _ List.mem_cons_self)
            exact h.of_lookup key List.lookup_cons_self List.lookup_cons_self
          have htail : Json.Equal (.dict d) (.dict e) := by
            apply Json.Equal.dict
            intro k
            by_cases hk : k = key
            · rw [hk, Dict.lookup_eq_none hnodup.1, Dict.lookup_eq_none (hkeys ▸ hnodup.1)]
              exact .none
            · have hlookup := h.lookup k
              rwa [List.lookup_cons, List.lookup_cons, beq_false_of_ne hk] at hlookup
          rw [hhead, ih hkeys hnodup.2 (fun entry hmem => hd entry (List.mem_cons_of_mem _ hmem))
            (fun entry hmem => he entry (List.mem_cons_of_mem _ hmem)) htail]

/-! ### What a dump and load keep -/

/-- Objects with distinct keys, integers, strings and nulls. -/
inductive Json.Plain : Json → Prop
  | null : Plain .null
  | int (n : ℤ) : Plain (.int n)
  | str (s : String) : Plain (.str s)
  | dict {d : Dict} (hkeys : (d.map Prod.fst).Nodup) (hvalues : ∀ entry ∈ d, Plain entry.2) :
      Plain (.dict d)

theorem Json.Plain.of_scalar {v : Json} (h : v.Scalar) : v.Plain := by
  cases v with
  | null => exact .null
  | int n => exact .int n
  | str s => exact .str s
  | _ => exact h.elim

theorem Json.Plain.equal_refl {v : Json} (h : v.Plain) : Json.Equal v v := by
  induction h with
  | null => exact .null
  | int n => exact .num rfl rfl (by simp)
  | str s => exact .str s
  | @dict d hkeys hvalues ih =>
      apply Json.Equal.dict
      intro key
      cases hv : d.lookup key with
      | none => exact .none
      | some v =>
          obtain ⟨before, after, rfl, -⟩ := List.lookup_eq_some_iff.mp hv
          exact .some (ih (key, v) (by simp))

theorem Json.Equal.dict_of_lookup_eq {d e : Dict} (h : ∀ key, d.lookup key = e.lookup key)
    (hscalar : ∀ key v, e.lookup key = some v → v.Scalar) : Json.Equal (.dict d) (.dict e) := by
  apply Json.Equal.dict
  intro key
  rw [h key]
  cases hv : e.lookup key with
  | none => exact .none
  | some v => exact .some (Json.Plain.of_scalar (hscalar key v hv)).equal_refl

/-- `json.loads(json.dumps(value))`, as far as the code relies on it. -/
structure Json.Reloads (reload : Json → Json) : Prop where
  null : reload .null = .null
  int : ∀ n, reload (.int n) = .int n
  str : ∀ s, reload (.str s) = .str s
  dict : ∀ d : Dict, (d.map Prod.fst).Nodup →
    reload (.dict d) = .dict (d.map fun entry => (entry.1, reload entry.2))

theorem Json.Plain.reload {reload : Json → Json} (hreload : Json.Reloads reload) {v : Json}
    (h : v.Plain) : reload v = v := by
  induction h with
  | null => exact hreload.null
  | int n => exact hreload.int n
  | str s => exact hreload.str s
  | @dict d hkeys hvalues ih =>
      rw [hreload.dict d hkeys]
      congr 1
      calc
        d.map (fun entry => (entry.1, reload entry.2)) = d.map id := by
          apply List.map_congr_left
          intro entry hmem
          rw [ih entry hmem, id]
        _ = d := List.map_id d

end DistributedMarket
