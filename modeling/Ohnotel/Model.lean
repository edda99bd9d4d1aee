/-
# Attributes

An attribute is a key, with or without a value.  What the standard library prints of a
float, and of a string between quotes, is left open; of a finite float it prints digits,
a sign and a point, and never the same for two.
-/

namespace Ohnotel

/-- A string, as the list of its characters. -/
abbrev Text : Type := List Char

-- Membership in a list of texts is decided through this instance in every module.
instance : LawfulBEq Text := inferInstance

/-- What is known of a 64-bit float and of the texts the standard library prints. -/
class Formats (F : Type) where
  isNan : F → Bool
  isInfinite : F → Bool
  isSignPositive : F → Bool
  /-- `Display` of a float. -/
  display : F → Text
  /-- `Debug` of a string. -/
  debugStr : String → Text
  display_digits : ∀ value, isNan value = false → isInfinite value = false →
    display value ≠ [] ∧ ∀ c ∈ display value, c.isDigit ∨ c = '-' ∨ c = '.'
  display_injective : ∀ first second, isNan first = false → isInfinite first = false →
    isNan second = false → isInfinite second = false → display first = display second →
    first = second

/-- The float is a number. -/
def Formats.Finite {F : Type} [Formats F] (value : F) : Prop :=
  isNan value = false ∧ isInfinite value = false

/-- Floats without a fraction, printed as the standard library prints them. -/
inductive WholeFloat
  | whole (value : Int)
  | infinite (positive : Bool)
  | nan
  deriving DecidableEq

namespace WholeFloat

def display : WholeFloat → Text
  | whole (.ofNat n) => Nat.toDigits 10 n
  | whole (.negSucc n) => '-' :: Nat.toDigits 10 (n + 1)
  | infinite true => "inf".toList
  | infinite false => "-inf".toList
  | nan => "NaN".toList

theorem toDigits_injective {m n : Nat} (h : Nat.toDigits 10 m = Nat.toDigits 10 n) : m = n := by
  rw [← Nat.ofDigitChars_ten_toDigits (n := m), h, Nat.ofDigitChars_ten_toDigits]

theorem isDigit_of_mem {n : Nat} {c : Char} (hc : c ∈ Nat.toDigits 10 n) : c.isDigit :=
  Nat.isDigit_of_mem_toDigits (by decide) (by decide) hc

/-- A number that is not negative does not start with a sign. -/
theorem toDigits_ne_sign {m : Nat} {rest : Text} : Nat.toDigits 10 m ≠ '-' :: rest := by
  intro h
  have hdigit : '-'.isDigit := isDigit_of_mem (h ▸ List.mem_cons_self)
  simp [Char.isDigit] at hdigit

theorem display_whole_digits (value : Int) :
    display (whole value) ≠ [] ∧
      ∀ c ∈ display (whole value), c.isDigit ∨ c = '-' ∨ c = '.' := by
  cases value with
  | ofNat n => exact ⟨Nat.toDigits_ne_nil, fun c hc => .inl (isDigit_of_mem hc)⟩
  | negSucc n =>
      refine ⟨List.cons_ne_nil _ _, fun c hc => ?_⟩
      rcases List.mem_cons.mp hc with rfl | hc
      · exact .inr (.inl rfl)
      · exact .inl (isDigit_of_mem hc)

theorem display_whole_injective {first second : Int}
    (h : display (whole first) = display (whole second)) : first = second := by
  cases first with
  | ofNat m =>
      cases second with
      | ofNat n => exact congrArg Int.ofNat (toDigits_injective h)
      | negSucc n => exact absurd h toDigits_ne_sign
  | negSucc m =>
      cases second with
      | ofNat n => exact absurd h.symm toDigits_ne_sign
      | negSucc n =>
          have hdigits := toDigits_injective (List.cons.inj h).2
          exact congrArg Int.negSucc (Nat.succ.inj hdigits)

instance : Formats WholeFloat where
  isNan value := value = nan
  isInfinite value := value = infinite true ∨ value = infinite false
  isSignPositive
    | whole value => 0 ≤ value
    | infinite positive => positive
    | nan => true
  display := display
  debugStr text := '"' :: text.toList ++ ['"']
  display_digits value hnan hinfinite := by
    cases value with
    | whole value => exact display_whole_digits value
    | infinite positive => cases positive <;> simp at hinfinite
    | nan => simp at hnan
  display_injective first second hnan hinfinite hnan' hinfinite' h := by
    cases first with
    | infinite positive => cases positive <;> simp at hinfinite
    | nan => simp at hnan
    | whole first =>
        cases second with
        | whole second => rw [display_whole_injective h]
        | infinite positive => cases positive <;> simp at hinfinite'
        | nan => simp at hnan'

end WholeFloat

mutual

inductive Value (F : Type) : Type
  | string (value : String)
  | bool (value : Bool)
  | int (value : Int64)
  | double (value : F)
  | arrayAny (values : List (Value F))
  | arrayKv (values : List (KeyValue F))
  | bytes (values : List UInt8)

structure KeyValue (F : Type) : Type where
  key : String
  value : Option (Value F)

end

variable {F : Type} [Formats F]

mutual

/-- `Display` of a value. -/
def Value.display : Value F → Text
  | .string value => Formats.debugStr F value
  | .bool value => (toString value).toList
  | .int value => (toString value.toInt).toList
  | .double value => Formats.display value
  | .arrayAny values => '[' :: Value.displayFrom 0 values ++ [']']
  | .arrayKv values => '{' :: KeyValue.displayFrom 0 values ++ ['}']
  | .bytes values => (toString (values.map UInt8.toNat)).toList

/-- The values of an array from the index `idx` on. -/
def Value.displayFrom (idx : Nat) : List (Value F) → Text
  | [] => []
  | value :: rest =>
      (if idx ≠ 0 then [','] else []) ++ value.display ++ Value.displayFrom (idx + 1) rest

/-- `Display` of an attribute. -/
def KeyValue.display : KeyValue F → Text
  | ⟨key, none⟩ => key.toList
  | ⟨key, some value⟩ => key.toList ++ '=' :: value.display

/-- The attributes of an array from the index `idx` on. -/
def KeyValue.displayFrom (idx : Nat) : List (KeyValue F) → Text
  | [] => []
  | value :: rest =>
      (if idx ≠ 0 then [','] else []) ++ value.display ++ KeyValue.displayFrom (idx + 1) rest

end

end Ohnotel
