/-
# The order of attributes

The derived orders compare the variants of a value by their place in its declaration, and
what they hold field by field; a list comes before what it is the beginning of.  That is
the lexicographic order of the value written out as tokens, each list with a token for
every element that comes and one for its end.
-/

import Mathlib.Algebra.Group.Int.Defs
import Mathlib.Data.Char
import Mathlib.Data.List.Lex
import Mathlib.Data.Prod.Lex
import Mathlib.Data.Sum.Order
import Mathlib.Order.Lex
import Ohnotel.Model

namespace Ohnotel

variable {F : Type}

/-- What a value is written out as: numbers and floats. -/
abbrev Token (F : Type) : Type := Lex (ℕ ⊕ F)

def Token.nat (n : ℕ) : Token F := toLex (.inl n)

def Token.float (value : F) : Token F := toLex (.inr value)

theorem Token.nat_injective {m n : ℕ} (h : (nat m : Token F) = nat n) : m = n :=
  Sum.inl.inj h

theorem Token.float_injective {first second : F} (h : float first = float second) :
    first = second := Sum.inr.inj h

/-- What is written out begins with the same number. -/
theorem Token.head_eq {m n : ℕ} {rest rest' : List (Token F)}
    (h : nat m :: rest = nat n :: rest') : m = n := nat_injective (List.cons.inj h).1

/-- Numbers with an end. -/
def terminated : List ℕ → List (Token F)
  | [] => [.nat 0]
  | n :: rest => .nat (n + 1) :: terminated rest

def Text.code (text : Text) : List (Token F) := terminated (text.map Char.toNat)

mutual

def Value.code : Value F → List (Token F)
  | .string value => .nat 0 :: Text.code value.toList
  | .bool value => [.nat 1, .nat value.toNat]
  | .int value => [.nat 2, .nat (value.toInt + 2 ^ 63).toNat]
  | .double value => [.nat 3, .float value]
  | .arrayAny values => .nat 4 :: Value.codeAll values
  | .arrayKv values => .nat 5 :: KeyValue.codeAll values
  | .bytes values => .nat 6 :: terminated (values.map UInt8.toNat)

def Value.codeAll : List (Value F) → List (Token F)
  | [] => [.nat 0]
  | value :: rest => .nat 1 :: (value.code ++ Value.codeAll rest)

def KeyValue.code : KeyValue F → List (Token F)
  | ⟨key, none⟩ => Text.code key.toList ++ [.nat 0]
  | ⟨key, some value⟩ => Text.code key.toList ++ .nat 1 :: value.code

def KeyValue.codeAll : List (KeyValue F) → List (Token F)
  | [] => [.nat 0]
  | value :: rest => .nat 1 :: (value.code ++ KeyValue.codeAll rest)

end

/-! ## Tokens are read off in front of any others -/

theorem terminated_append {first second : List ℕ} {rest rest' : List (Token F)}
    (h : terminated first ++ rest = terminated second ++ rest') :
    first = second ∧ rest = rest' := by
  induction first generalizing second with
  | nil =>
      cases second with
      | nil => exact ⟨rfl, (List.cons.inj h).2⟩
      | cons n later => exact absurd (Token.head_eq h) (by simp)
  | cons m earlier ih =>
      cases second with
      | nil => exact absurd (Token.head_eq h) (by simp)
      | cons n later =>
          obtain ⟨hhead, htail⟩ := List.cons.inj h
          obtain ⟨rfl, hrest⟩ := ih htail
          exact ⟨by rw [Nat.succ.inj (Token.nat_injective hhead)], hrest⟩

theorem Text.code_append {first second : Text} {rest rest' : List (Token F)}
    (h : Text.code first ++ rest = Text.code second ++ rest') :
    first = second ∧ rest = rest' := by
  obtain ⟨hchars, hrest⟩ := terminated_append h
  have hinj : Function.Injective Char.toNat := fun _ _ heq => Char.toNat_inj.mp heq
  exact ⟨hinj.list_map hchars, hrest⟩

theorem Int64.code_injective {first second : Int64}
    (h : (first.toInt + 2 ^ 63).toNat = (second.toInt + 2 ^ 63).toNat) : first = second := by
  have hfirst := first.le_toInt
  have hsecond := second.le_toInt
  exact Int64.toInt_inj.mp (by omega)

mutual

theorem Value.code_append : ∀ (first second : Value F) {rest rest' : List (Token F)},
    first.code ++ rest = second.code ++ rest' → first = second ∧ rest = rest'
  | .string value, second, rest, rest', h => by
      cases second with
      | string other =>
          obtain ⟨htext, hrest⟩ := Text.code_append (List.cons.inj h).2
          exact ⟨by rw [String.toList_inj.mp htext], hrest⟩
      | _ => exact absurd (Token.head_eq h) (by decide)
  | .bool value, second, rest, rest', h => by
      cases second with
      | bool other =>
          obtain ⟨hvalue, hrest⟩ := List.cons.inj (List.cons.inj h).2
          have hinj : ∀ a b : Bool, a.toNat = b.toNat → a = b := by decide
          exact ⟨by rw [hinj _ _ (Token.nat_injective hvalue)], hrest⟩
      | _ => exact absurd (Token.head_eq h) (by decide)
  | .int value, second, rest, rest', h => by
      cases second with
      | int other =>
          obtain ⟨hvalue, hrest⟩ := List.cons.inj (List.cons.inj h).2
          exact ⟨by rw [Int64.code_injective (Token.nat_injective hvalue)], hrest⟩
      | _ => exact absurd (Token.head_eq h) (by decide)
  | .double value, second, rest, rest', h => by
      cases second with
      | double other =>
          obtain ⟨hvalue, hrest⟩ := List.cons.inj (List.cons.inj h).2
          exact ⟨by rw [Token.float_injective hvalue], hrest⟩
      | _ => exact absurd (Token.head_eq h) (by decide)
  | .arrayAny values, second, rest, rest', h => by
      cases second with
      | arrayAny others =>
          obtain ⟨hvalues, hrest⟩ := Value.codeAll_append values others (List.cons.inj h).2
          exact ⟨by rw [hvalues], hrest⟩
      | _ => exact absurd (Token.head_eq h) (by decide)
  | .arrayKv values, second, rest, rest', h => by
      cases second with
      | arrayKv others =>
          obtain ⟨hvalues, hrest⟩ := KeyValue.codeAll_append values others (List.cons.inj h).2
          exact ⟨by rw [hvalues], hrest⟩
      | _ => exact absurd (Token.head_eq h) (by decide)
  | .bytes values, second, rest, rest', h => by
      cases second with
      | bytes others =>
          obtain ⟨hbytes, hrest⟩ := terminated_append (List.cons.inj h).2
          have hinj : Function.Injective UInt8.toNat := fun _ _ heq => UInt8.toNat_inj.mp heq
          exact ⟨by rw [hinj.list_map hbytes], hrest⟩
      | _ => exact absurd (Token.head_eq h) (by decide)

theorem Value.codeAll_append : ∀ (first second : List (Value F)) {rest rest' : List (Token F)},
    Value.codeAll first ++ rest = Value.codeAll second ++ rest' → first = second ∧ rest = rest'
  | [], [], rest, rest', h => ⟨rfl, (List.cons.inj h).2⟩
  | [], _ :: _, rest, rest', h => absurd (Token.head_eq h) (by decide)
  | _ :: _, [], rest, rest', h => absurd (Token.head_eq h) (by decide)
  | value :: earlier, other :: later, rest, rest', h => by
      have htail := (List.cons.inj h).2
      simp only [List.append_eq, List.append_assoc] at htail
      obtain ⟨hvalue, hlater⟩ := Value.code_append value other htail
      obtain ⟨hvalues, hrest⟩ := Value.codeAll_append earlier later hlater
      exact ⟨by rw [hvalue, hvalues], hrest⟩

theorem KeyValue.code_append : ∀ (first second : KeyValue F) {rest rest' : List (Token F)},
    first.code ++ rest = second.code ++ rest' → first = second ∧ rest = rest'
  | ⟨key, none⟩, ⟨key', none⟩, rest, rest', h => by
      simp only [KeyValue.code, List.append_assoc] at h
      obtain ⟨hkey, hrest⟩ := Text.code_append h
      exact ⟨by rw [String.toList_inj.mp hkey], (List.cons.inj hrest).2⟩
  | ⟨key, none⟩, ⟨key', some _⟩, rest, rest', h => by
      simp only [KeyValue.code, List.append_assoc] at h
      exact absurd (Token.head_eq (Text.code_append h).2) (by decide)
  | ⟨key, some _⟩, ⟨key', none⟩, rest, rest', h => by
      simp only [KeyValue.code, List.append_assoc] at h
      exact absurd (Token.head_eq (Text.code_append h).2) (by decide)
  | ⟨key, some value⟩, ⟨key', some other⟩, rest, rest', h => by
      simp only [KeyValue.code, List.append_assoc] at h
      obtain ⟨hkey, htail⟩ := Text.code_append h
      obtain ⟨hvalue, hrest⟩ := Value.code_append value other (List.cons.inj htail).2
      exact ⟨by rw [String.toList_inj.mp hkey, hvalue], hrest⟩

theorem KeyValue.codeAll_append :
    ∀ (first second : List (KeyValue F)) {rest rest' : List (Token F)},
      KeyValue.codeAll first ++ rest = KeyValue.codeAll second ++ rest' →
        first = second ∧ rest = rest'
  | [], [], rest, rest', h => ⟨rfl, (List.cons.inj h).2⟩
  | [], _ :: _, rest, rest', h => absurd (Token.head_eq h) (by decide)
  | _ :: _, [], rest, rest', h => absurd (Token.head_eq h) (by decide)
  | value :: earlier, other :: later, rest, rest', h => by
      have htail := (List.cons.inj h).2
      simp only [List.append_eq, List.append_assoc] at htail
      obtain ⟨hvalue, hlater⟩ := KeyValue.code_append value other htail
      obtain ⟨hvalues, hrest⟩ := KeyValue.codeAll_append earlier later hlater
      exact ⟨by rw [hvalue, hvalues], hrest⟩

end

theorem KeyValue.code_injective : Function.Injective (KeyValue.code : KeyValue F → _) := by
  intro first second h
  exact (KeyValue.code_append first second (congrArg (· ++ []) h)).1

/-- The derived `Ord` of `KeyValue`. -/
instance [LinearOrder F] : LinearOrder (KeyValue F) :=
  LinearOrder.lift' KeyValue.code KeyValue.code_injective

/-- Floats in the order of their values, and after them what is not a number. -/
def WholeFloat.rank : WholeFloat → ℕ ×ₗ ℤ
  | infinite false => toLex (0, 0)
  | whole value => toLex (1, value)
  | infinite true => toLex (2, 0)
  | nan => toLex (3, 0)

instance : LinearOrder WholeFloat :=
  LinearOrder.lift' WholeFloat.rank (by
    intro first second h
    cases first with
    | whole value =>
        cases second with
        | whole other => exact congrArg _ (Prod.mk.inj h).2
        | infinite positive => cases positive <;> exact absurd (Prod.mk.inj h).1 (by decide)
        | nan => exact absurd (Prod.mk.inj h).1 (by decide)
    | infinite positive =>
        cases second with
        | whole other => cases positive <;> exact absurd (Prod.mk.inj h).1 (by decide)
        | infinite positive' =>
            cases positive <;> cases positive' <;> first | rfl | exact absurd h (by decide)
        | nan => cases positive <;> exact absurd (Prod.mk.inj h).1 (by decide)
    | nan =>
        cases second with
        | whole other => exact absurd (Prod.mk.inj h).1 (by decide)
        | infinite positive => cases positive <;> exact absurd (Prod.mk.inj h).1 (by decide)
        | nan => rfl)

example :
    (⟨"path", some (.string "/a")⟩ : KeyValue WholeFloat) <
      ⟨"path", some (.string "/b")⟩ := by
  decide

/-! ## Floats that compare equal -/

/-- `OrderedFloat`: the place of a float in the order.  Floats that compare equal have one
place, and may be printed differently. -/
class OrderedFloat (F : Type) (R : outParam Type) [LinearOrder R] where
  rank : F → R

instance : OrderedFloat WholeFloat WholeFloat where
  rank value := value

variable {R : Type} [LinearOrder R] [OrderedFloat F R]

mutual

/-- A value as it is compared: each float by its place. -/
def Value.ranked : Value F → Value R
  | .string value => .string value
  | .bool value => .bool value
  | .int value => .int value
  | .double value => .double (OrderedFloat.rank value)
  | .arrayAny values => .arrayAny (Value.rankedAll values)
  | .arrayKv values => .arrayKv (KeyValue.rankedAll values)
  | .bytes values => .bytes values

def Value.rankedAll : List (Value F) → List (Value R)
  | [] => []
  | value :: rest => value.ranked :: Value.rankedAll rest

def KeyValue.ranked : KeyValue F → KeyValue R
  | ⟨key, none⟩ => ⟨key, none⟩
  | ⟨key, some value⟩ => ⟨key, some value.ranked⟩

/-- Attributes as they are compared. -/
def KeyValue.rankedAll : List (KeyValue F) → List (KeyValue R)
  | [] => []
  | value :: rest => value.ranked :: KeyValue.rankedAll rest

end

end Ohnotel
