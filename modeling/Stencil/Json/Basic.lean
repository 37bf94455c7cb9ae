import Stencil.Binary64.Basic

/-!
# JSON values

The values that templates read and documents hold. An object keeps its members in the order in
which their names were first set, and a number keeps whether it was written as an integer or as a
float, since both show in the output.
-/

namespace Stencil

/-- The integers that a number holds exactly: those of a signed or an unsigned 64-bit word. -/
def Number.Exact (n : Int) : Prop := -9223372036854775808 ≤ n ∧ n ≤ 18446744073709551615

instance (n : Int) : Decidable (Number.Exact n) := inferInstanceAs (Decidable (_ ∧ _))

/-- A number: an integer of 64 bits or a float. The integer 1 and the float 1.0 differ. -/
inductive Number
  | integer (n : Int) (exact : Number.Exact n)
  | float (x : Binary64)
deriving DecidableEq, Repr

namespace Number

/-- The integer as a number, when a number holds it exactly. -/
def ofInt? (n : Int) : Option Number := if h : Exact n then some (.integer n h) else none

/-- The number for an integer: itself when it is held exactly, else the nearest float, and zero
beyond all floats. -/
def ofInt (n : Int) : Number :=
  if h : Exact n then .integer n h
  else .float ((Binary64.ofInt? n).getD (Binary64.zero false))

def isZero : Number → Bool
  | .integer n _ => n == 0
  | .float x => x.isZero

/-- The number as a signed 64-bit integer: a fraction is dropped and what lies outside becomes the
nearest limit. -/
def toSigned : Number → Int
  | .integer n _ => Numeral.clampSigned n
  | .float x => Numeral.clampSigned x.truncate

/-- Equality of value within one form; the two float zeros are equal. -/
def agrees : Number → Number → Bool
  | .integer m _, .integer n _ => m == n
  | .float x, .float y => x.units == y.units
  | _, _ => false

end Number

inductive Json
  | null
  | bool (b : Bool)
  | number (n : Number)
  | string (s : Text)
  | array (items : List Json)
  | object (members : List (Text × Json))
deriving Inhabited

/-- The members of an object, in order. -/
abbrev Members := List (Text × Json)

namespace Json

mutual
def decEq : (a b : Json) → Decidable (a = b)
  | .null, b => by
    cases b <;> first | exact isTrue rfl | exact isFalse (by simp)
  | .bool a, b =>
    match b with
    | .bool b => decidable_of_iff (a = b) (by simp)
    | .null | .number _ | .string _ | .array _ | .object _ => isFalse (by simp)
  | .number a, b =>
    match b with
    | .number b => decidable_of_iff (a = b) (by simp)
    | .null | .bool _ | .string _ | .array _ | .object _ => isFalse (by simp)
  | .string a, b =>
    match b with
    | .string b => decidable_of_iff (a = b) (by simp)
    | .null | .bool _ | .number _ | .array _ | .object _ => isFalse (by simp)
  | .array a, b =>
    match b with
    | .array b =>
      match decEqItems a b with
      | isTrue h => isTrue (by rw [h])
      | isFalse h => isFalse (by simp [h])
    | .null | .bool _ | .number _ | .string _ | .object _ => isFalse (by simp)
  | .object a, b =>
    match b with
    | .object b =>
      match decEqMembers a b with
      | isTrue h => isTrue (by rw [h])
      | isFalse h => isFalse (by simp [h])
    | .null | .bool _ | .number _ | .string _ | .array _ => isFalse (by simp)

def decEqItems : (a b : List Json) → Decidable (a = b)
  | [], [] => isTrue rfl
  | [], _ :: _ => isFalse (by simp)
  | _ :: _, [] => isFalse (by simp)
  | x :: xs, y :: ys =>
    match decEq x y with
    | isFalse h => isFalse (by simp [h])
    | isTrue h =>
      match decEqItems xs ys with
      | isFalse h' => isFalse (by simp [h'])
      | isTrue h' => isTrue (by rw [h, h'])

def decEqMembers : (a b : List (Text × Json)) → Decidable (a = b)
  | [], [] => isTrue rfl
  | [], _ :: _ => isFalse (by simp)
  | _ :: _, [] => isFalse (by simp)
  | (j, x) :: xs, (k, y) :: ys =>
    if hjk : j = k then
      match decEq x y with
      | isFalse h => isFalse (by simp [h])
      | isTrue h =>
        match decEqMembers xs ys with
        | isFalse h' => isFalse (by simp [h'])
        | isTrue h' => isTrue (by rw [hjk, h, h'])
    else isFalse (by simp [hjk])
end

instance : DecidableEq Json := decEq

def kindName : Json → Text
  | .null => "null".toList
  | .bool _ => "boolean".toList
  | .number _ => "number".toList
  | .string _ => "string".toList
  | .array _ => "array".toList
  | .object _ => "object".toList

mutual
/-- Equality that does not see the order of members and takes the two float zeros as equal. -/
def agrees : Json → Json → Bool
  | .null, .null => true
  | .bool a, .bool b => a == b
  | .number a, .number b => a.agrees b
  | .string a, .string b => a == b
  | .array a, .array b => itemsAgree a b
  | .object a, .object b => a.length == b.length && membersAgree a b
  | _, _ => false

def itemsAgree : List Json → List Json → Bool
  | [], [] => true
  | x :: xs, y :: ys => agrees x y && itemsAgree xs ys
  | _, _ => false

/-- Whether each member agrees with the one of the same name in the second list. -/
def membersAgree : List (Text × Json) → List (Text × Json) → Bool
  | [], _ => true
  | (k, x) :: xs, ys =>
    (match ys.lookup k with
      | some y => agrees x y
      | none => false) && membersAgree xs ys
end

end Json

namespace Members

/-- The value of the first member with the given name. -/
def get? (members : Members) (name : Text) : Option Json := members.lookup name

/-- The members with one value set: an existing name keeps its place, a new one goes last. -/
def set : (members : Members) → (name : Text) → Json → Members
  | [], name, value => [(name, value)]
  | (k, v) :: rest, name, value =>
    if k = name then (k, value) :: rest else (k, v) :: set rest name value

/-- The members with several values set in turn, so that the last one of a name wins. -/
def setAll (members : Members) (changes : List (Text × Json)) : Members :=
  changes.foldl (fun acc change => set acc change.1 change.2) members

def names (members : Members) : List Text := members.map Prod.fst

@[simp] theorem get?_set_self (members : Members) (name : Text) (value : Json) :
    get? (set members name value) name = some value := by
  induction members with
  | nil => simp [get?, set]
  | cons m rest ih =>
    obtain ⟨k, v⟩ := m
    unfold set
    split
    · next h => simp [get?, h]
    · next h =>
      have h' : (name == k) = false := by simpa using fun e => h e.symm
      simpa [get?, List.lookup_cons, h'] using ih

theorem get?_set_of_ne (members : Members) {name other : Text} (value : Json) (h : other ≠ name) :
    get? (set members name value) other = get? members other := by
  induction members with
  | nil =>
    have h' : (other == name) = false := by simpa using h
    simp [get?, set, List.lookup_cons, h']
  | cons m rest ih =>
    obtain ⟨k, v⟩ := m
    unfold set
    split
    · next hk =>
      subst hk
      have h' : (other == k) = false := by simpa using h
      simp [get?, List.lookup_cons, h']
    · next hk =>
      by_cases hok : other = k
      · simp [get?, hok]
      · have h' : (other == k) = false := by simpa using hok
        simpa [get?, List.lookup_cons, h'] using ih

end Members
end Stencil
