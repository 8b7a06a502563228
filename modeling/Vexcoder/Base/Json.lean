import Vexcoder.Base.Str

/-!
# JSON values

`Value` is `serde_json::Value`; an object is the key-ordered list of its members, as the map of
`serde_json` is without its `preserve_order` feature.  Reading and writing the text of a value is
the work of that library, and stands here as the functions of a `JsonCodec`.
-/

namespace Vexcoder.Base

/-- `serde_json::Number`; a float is given by the bits of the `f64`. -/
inductive Number where
  | posInt (n : ℕ)
  | negInt (i : ℤ)
  | float (bits : ℕ)
  deriving DecidableEq

/-- `Number::from` at `i64`. -/
def Number.ofInt (i : ℤ) : Number := if 0 ≤ i then .posInt i.toNat else .negInt i

inductive Value where
  | null
  | bool (b : Bool)
  | number (n : Number)
  | string (s : String)
  | array (xs : List Value)
  | object (members : List (String × Value))

namespace Value

mutual
def same : Value → Value → Bool
  | .null, .null => true
  | .bool a, .bool b => a == b
  | .number a, .number b => a == b
  | .string a, .string b => a == b
  | .array xs, .array ys => sameItems xs ys
  | .object m, .object n => sameMembers m n
  | _, _ => false

def sameItems : List Value → List Value → Bool
  | [], [] => true
  | x :: xs, y :: ys => same x y && sameItems xs ys
  | _, _ => false

def sameMembers : List (String × Value) → List (String × Value) → Bool
  | [], [] => true
  | (k, x) :: m, (l, y) :: n => k == l && same x y && sameMembers m n
  | _, _ => false
end

mutual
theorem same_iff : ∀ a b : Value, same a b = true ↔ a = b
  | .null, b => by cases b <;> simp [same]
  | .bool _, b => by cases b <;> simp [same]
  | .number _, b => by cases b <;> simp [same]
  | .string _, b => by cases b <;> simp [same]
  | .array xs, b => by cases b <;> simp [same, sameItems_iff xs]
  | .object m, b => by cases b <;> simp [same, sameMembers_iff m]

theorem sameItems_iff : ∀ xs ys : List Value, sameItems xs ys = true ↔ xs = ys
  | [], ys => by cases ys <;> simp [sameItems]
  | x :: xs, ys => by cases ys <;> simp [sameItems, same_iff x, sameItems_iff xs]

theorem sameMembers_iff : ∀ m n : List (String × Value), sameMembers m n = true ↔ m = n
  | [], n => by cases n <;> simp [sameMembers]
  | (k, x) :: m, n => by
    cases n with
    | nil => simp [sameMembers]
    | cons member n =>
      obtain ⟨l, y⟩ := member
      simp [sameMembers, same_iff x, sameMembers_iff m, and_assoc]
end

instance : DecidableEq Value := fun a b => decidable_of_iff (same a b = true) (same_iff a b)

/-- `Map::insert`: the key keeps its place when it is there, else it goes to its place in order. -/
def insertMember (key : String) (value : Value) : List (String × Value) → List (String × Value)
  | [] => [(key, value)]
  | (k, v) :: members =>
    if key = k then (key, value) :: members
    else if key < k then (key, value) :: (k, v) :: members
    else (k, v) :: insertMember key value members

/-- `Value::get` with a string key. -/
def get? (value : Value) (key : String) : Option Value :=
  match value with
  | .object members => members.lookup key
  | _ => none

def asStr : Value → Option String
  | .string s => some s
  | _ => none

def emptyObject : Value := .object []

end Value

/-- The functions of the JSON library and of float parsing that the program calls. -/
structure JsonCodec where
  /-- `serde_json::from_str::<Value>` -/
  fromStr : List Char → Option Value
  /-- `serde_json::to_string` -/
  toString : Value → List Char
  /-- `str::parse::<f64>` followed by `Number::from_f64`, which rejects what is not finite. -/
  parseF64 : List Char → Option Number

end Vexcoder.Base
