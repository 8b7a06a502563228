import Mathlib.Algebra.Group.Int.Defs
import Vexcoder.Base.Json

/-!
# Derived readers

How a derived `Deserialize` reads a record from JSON text: by key, each known key at most once and the
others skipped, or by position, with no item behind the last field.  A record reader first finds the
value of each field (`readFields`) and then reads these, with a default for those that may be missing.
The members of an object are those of the text, in order and with repetitions.
-/

namespace Vexcoder.Base

/-- `none` where the value is refused. -/
abbrev Reader (α : Type) := Value → Option α

namespace Reader

variable {α β : Type}

/-- The values of the fields, `none` for a missing one; each field by its name and its aliases. -/
def readFields (fields : List (List String)) : Value → Option (List (Option Value))
  | .object members =>
    if fields.all fun names => (members.filter fun member => member.1 ∈ names).length ≤ 1 then
      some (fields.map fun names => (members.find? fun member => member.1 ∈ names).map Prod.snd)
    else none
  | .array items =>
    if items.length ≤ fields.length then some ((List.range fields.length).map (items[·]?))
    else none
  | _ => none

def required (read : Reader α) (value : Option Value) : Option α := value.bind read

/-- `#[serde(default)]` -/
def defaulted (default : α) (read : Reader α) : Option Value → Option α
  | none => some default
  | some value => read value

def nullable (read : Reader α) : Reader (Option α)
  | .null => some none
  | value => (read value).map some

def string : Reader String
  | .string s => some s
  | _ => none

def bool : Reader Bool
  | .bool b => some b
  | _ => none

def unsigned (bound : ℕ) : Reader ℕ
  | .number (.posInt n) => if n < bound then some n else none
  | _ => none

def u64 : Reader ℕ := unsigned (2 ^ 64)

def i32 : Reader ℤ
  | .number (.posInt n) => if n < 2 ^ 31 then some n else none
  | .number (.negInt i) => if -(2 ^ 31) ≤ i then some i else none
  | _ => none

def list (read : Reader α) : Reader (List α)
  | .array items => items.mapM read
  | _ => none

/-- An enumeration without data, as its name or as an object of the name and null. -/
def variant (names : List (String × α)) : Reader α
  | .string s => names.lookup s
  | .object [(s, .null)] => names.lookup s
  | _ => none

/-! ### Items of a list -/

variable {read : Reader α} {l : List α} {items : List Value} {members : List (String × Value)}

theorem list_eq_some {value : Value} (h : list read value = some l) :
    ∃ items, value = .array items ∧ items.mapM read = some l := by
  cases value with
  | array items => exact ⟨items, rfl, h⟩
  | _ => cases h

theorem mapM_nil (h : items.mapM read = some []) : items = [] := by
  cases items with
  | nil => rfl
  | cons item items =>
    rw [List.mapM_cons] at h
    obtain ⟨a, -, h⟩ := Option.bind_eq_some_iff.mp h
    obtain ⟨l, -, h⟩ := Option.bind_eq_some_iff.mp h
    cases h

/-- Where every value read one way is read the other way to what `f` makes of it, so is every list. -/
theorem mapM_map {read' : Reader β} {f : α → β} (h : items.mapM read = some l)
    (hread : ∀ item ∈ items, ∀ a, read item = some a → read' item = some (f a)) :
    items.mapM read' = some (l.map f) := by
  induction items generalizing l with
  | nil =>
    cases h
    rfl
  | cons item items ih =>
    rw [List.mapM_cons] at h
    obtain ⟨a, ha, h⟩ := Option.bind_eq_some_iff.mp h
    obtain ⟨l', hl', h⟩ := Option.bind_eq_some_iff.mp h
    cases h
    rw [List.mapM_cons, hread item List.mem_cons_self a ha,
      ih hl' fun item' hitem' => hread item' (List.mem_cons_of_mem item hitem')]
    rfl

theorem mapM_reads (h : items.mapM read = some l) {item : Value} (hitem : item ∈ items) :
    ∃ a ∈ l, read item = some a := by
  induction items generalizing l with
  | nil => cases hitem
  | cons first items ih =>
    rw [List.mapM_cons] at h
    obtain ⟨a, ha, h⟩ := Option.bind_eq_some_iff.mp h
    obtain ⟨l', hl', h⟩ := Option.bind_eq_some_iff.mp h
    cases h
    obtain rfl | hitem := List.mem_cons.mp hitem
    · exact ⟨a, List.mem_cons_self, ha⟩
    · obtain ⟨b, hb, hread⟩ := ih hl' hitem
      exact ⟨b, List.mem_cons_of_mem a hb, hread⟩

/-! ### Fields of a record -/

variable {fields : List (List String)} {value : Value} {values : List (Option Value)}

theorem readFields_object :
    readFields fields (.object members) = some values ↔
      (∀ names ∈ fields, (members.filter fun member => member.1 ∈ names).length ≤ 1) ∧
        values = fields.map fun names =>
          (members.find? fun member => member.1 ∈ names).map Prod.snd := by
  rw [readFields]
  split
  · rename_i h
    rw [List.all_eq_true] at h
    simp only [decide_eq_true_eq] at h
    rw [Option.some.injEq]
    exact ⟨fun heq => ⟨h, heq.symm⟩, fun heq => heq.2.symm⟩
  · rename_i h
    rw [List.all_eq_true] at h
    simp only [decide_eq_true_eq] at h
    simp only [reduceCtorEq, false_iff]
    exact fun hall => h hall.1

/-- A field that is given at most once is the one that is found. -/
theorem find?_of_filter_length {p : String × Value → Bool} (h : (members.filter p).length ≤ 1)
    {member : String × Value} (hmem : member ∈ members) (hp : p member = true) :
    members.find? p = some member := by
  have hfilter : member ∈ members.filter p := List.mem_filter.mpr ⟨hmem, hp⟩
  obtain ⟨only, honly⟩ := List.length_eq_one_iff.mp (Nat.le_antisymm h (List.length_pos_of_mem hfilter))
  rw [honly, List.mem_singleton] at hfilter
  rw [← List.head?_filter, honly, List.head?_cons, hfilter]

/-- Of a field given at most once, what a reader finds that knows it under fewer names. -/
theorem find?_narrow {p q : String × Value → Bool} (hpq : ∀ member, q member = true → p member = true)
    (h : (members.filter p).length ≤ 1) {found : String × Value} (hfound : members.find? p = some found) :
    members.find? q = if q found then some found else none := by
  have hmem : found ∈ members := List.mem_of_find?_eq_some hfound
  split
  · rename_i hq
    refine find?_of_filter_length (Nat.le_trans (List.Sublist.length_le ?_) h) hmem hq
    exact List.monotone_filter_right members hpq
  · rename_i hq
    rw [List.find?_eq_none]
    intro member hmember hqmember
    have hsame := find?_of_filter_length h hmember (hpq member hqmember)
    rw [hfound, Option.some.injEq] at hsame
    rw [hsame] at hq
    exact hq hqmember

theorem readFields_array (h : readFields fields (.array items) = some values) :
    items.length ≤ fields.length ∧ ∀ i < fields.length, values[i]? = some items[i]? := by
  rw [readFields] at h
  split at h
  · rename_i hle
    cases h
    refine ⟨hle, fun i hi => ?_⟩
    rw [List.getElem?_map, List.getElem?_range hi]
    rfl
  · cases h

end Reader

end Vexcoder.Base
