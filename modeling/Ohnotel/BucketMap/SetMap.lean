/-
# What a bucket map is for

Seen from outside, a bucket map over an integer measurement is a finite map from
sets of attributes to values, plus one value for no attributes at all and a flag
that tells whether that value was written since the last drain.  Neither the order
nor the repetition of attributes in a caller's list can be seen, nor can tables,
fingerprints or addresses.

The only freedom left to an implementation is the order in which a visit or a drain
enumerates the sets, so the operations are a relation.
-/

import Mathlib.Data.Finset.Sort
import Mathlib.Data.Set.Finite.Basic
import Mathlib.Data.UInt
import Ohnotel.Atomic.Basic
import Ohnotel.Foundation.Sorting

namespace Ohnotel

/-- One call of a visit's callback: what it was shown and whether it asked for the
entry to be kept. -/
structure Call (K V : Type) where
  attrs : List K
  value : V
  keep : Bool

/-- A callback, as a function of the calls made to it so far and of what it is
shown now: whatever it has captured and mutated is determined by those. -/
abbrev Callback (K V : Type) := List (Call K V) → List K → V → Bool

/-- Call a callback on each pair in turn, continuing a log. -/
def callEach {K V : Type} (cb : Callback K V) :
    List (Call K V) → List (List K × V) → List (Call K V)
  | log, [] => log
  | log, shown :: rest =>
      callEach cb (log ++ [⟨shown.1, shown.2, cb log shown.1 shown.2⟩]) rest

theorem callEach_append {K V : Type} (cb : Callback K V) (log : List (Call K V))
    (first second : List (List K × V)) :
    callEach cb log (first ++ second) = callEach cb (callEach cb log first) second := by
  induction first generalizing log with
  | nil => rfl
  | cons shown rest ih =>
      rw [List.cons_append]
      exact ih _

/-- Every pair is shown to the callback. -/
theorem mem_callEach {K V : Type} (cb : Callback K V) (log : List (Call K V))
    {pairs : List (List K × V)} :
    (∀ call ∈ log, call ∈ callEach cb log pairs) ∧
      ∀ pair ∈ pairs, ∃ call ∈ callEach cb log pairs,
        call.attrs = pair.1 ∧ call.value = pair.2 := by
  induction pairs generalizing log with
  | nil => simp [callEach]
  | cons first rest ih =>
      obtain ⟨hkept, hshown⟩ := ih (log ++ [⟨first.1, first.2, cb log first.1 first.2⟩])
      constructor
      · exact fun call hcall => hkept call (List.mem_append_left _ hcall)
      · intro pair hpair
        cases List.mem_cons.mp hpair with
        | inl hsame =>
            subst hsame
            exact ⟨_, hkept _ (List.mem_append_right log (List.mem_singleton_self _)), rfl, rfl⟩
        | inr hlater => exact hshown pair hlater

/-- The operations of a bucket map whose cells hold one measurement each. -/
inductive ScalarOp (K T : Type)
  | add (value : T) (attrs : List K)
  | sub (value : T) (attrs : List K)
  | set (value : T) (attrs : List K)
  | reset (attrs : List K)
  | clear
  | take
  | visitBucket (cb : Callback K T)

/-- The attribute lists that occur in an operation. -/
def ScalarOp.lists {K T : Type} : ScalarOp K T → List (List K)
  | .add _ attrs | .sub _ attrs | .set _ attrs | .reset attrs => [attrs]
  | .clear | .take | .visitBucket _ => []

/-- What an operation returns: nothing, the value a reset returns, the content a
drain hands over, or the calls a visit made. -/
inductive Out (K T : Type)
  | unit
  | value (value : T)
  | taken (entries : List (List K × T)) (noAttr : Option T)
  | visited (calls : List (Call K T))

/-- A finite map from attribute sets to values, with the value that belongs to no
attributes and its touched flag. -/
structure SetMap (K T : Type) where
  cells : Finset K → Option T
  finite : {set | (cells set).isSome}.Finite
  noAttr : T
  touched : Bool

namespace SetMap

variable {K T : Type}

theorem ext_cells {first second : SetMap K T} (hcells : first.cells = second.cells)
    (hnoAttr : first.noAttr = second.noAttr) (htouched : first.touched = second.touched) :
    first = second := by
  cases first
  cases second
  subst hcells hnoAttr htouched
  rfl

variable [LinearOrder K]

/-- No set has a value, and nothing was written. -/
def empty [OfNat T 0] : SetMap K T where
  cells _ := none
  finite := by simp
  noAttr := 0
  touched := false

/-- Rewrite the value of one set, which starts at zero, and no other. -/
def update [OfNat T 0] (m : SetMap K T) (set : Finset K) (f : T → T) : SetMap K T :=
  { m with
    cells := Function.update m.cells set (some (f ((m.cells set).getD 0)))
    finite := by
      apply (m.finite.insert set).subset
      intro other hother
      by_cases h : other = set
      · exact Or.inl h
      · right
        simpa [Function.update_of_ne h] using hother }

/-- Write the value that belongs to no attributes. -/
def writeNoAttr (m : SetMap K T) (f : T → T) : SetMap K T :=
  { m with noAttr := f m.noAttr, touched := true }

/-- Rewrite the value a list of attributes stands for. -/
def write [OfNat T 0] (m : SetMap K T) (attrs : List K) (f : T → T) : SetMap K T :=
  if attrs.isEmpty then m.writeNoAttr f else m.update attrs.toFinset f

/-- The value a list of attributes stands for. -/
def valueAt [OfNat T 0] (m : SetMap K T) (attrs : List K) : T :=
  if attrs.isEmpty then m.noAttr else (m.cells attrs.toFinset).getD 0

/-- A list of all present sets with their values, each exactly once. -/
def Enumerates (m : SetMap K T) (order : List (Finset K × T)) : Prop :=
  (order.map Prod.fst).Nodup ∧
    ∀ set value, (set, value) ∈ order ↔ m.cells set = some value

/-- A set as a callback is shown it: its strictly sorted list, and its value. -/
def shown (entry : Finset K × T) : List K × T := (entry.1.sort (· ≤ ·), entry.2)

/-- The value of no attributes, as a visit shows it: only if it was touched. -/
def shownNoAttr (m : SetMap K T) : List (List K × T) :=
  if m.touched then [([], m.noAttr)] else []

/-- The callback refused the entry with these attributes. -/
def Refused (calls : List (Call K T)) (attrs : List K) : Prop :=
  ∃ call ∈ calls, call.attrs = attrs ∧ call.keep = false

open Classical in
/-- Remove exactly what a visit's callback refused. -/
noncomputable def evict [OfNat T 0] (m : SetMap K T) (calls : List (Call K T)) :
    SetMap K T where
  cells set := if Refused calls (set.sort (· ≤ ·)) then none else m.cells set
  finite := by
    apply m.finite.subset
    intro set hset
    change (if Refused calls (set.sort (· ≤ ·)) then none else m.cells set).isSome = true at hset
    split at hset
    · simp at hset
    · exact hset
  noAttr := if Refused calls [] then 0 else m.noAttr
  touched := if Refused calls [] then false else m.touched

theorem cells_evict_of_refused [OfNat T 0] {m : SetMap K T} {calls : List (Call K T)}
    {set : Finset K} (hrefused : Refused calls (set.sort (· ≤ ·))) :
    (m.evict calls).cells set = none := by
  simp only [evict, if_pos hrefused]

theorem cells_evict_of_not_refused [OfNat T 0] {m : SetMap K T} {calls : List (Call K T)}
    {set : Finset K} (hkept : ¬ Refused calls (set.sort (· ≤ ·))) :
    (m.evict calls).cells set = m.cells set := by
  simp only [evict, if_neg hkept]

theorem noAttr_evict_of_refused [OfNat T 0] {m : SetMap K T} {calls : List (Call K T)}
    (hrefused : Refused calls []) :
    (m.evict calls).noAttr = 0 ∧ (m.evict calls).touched = false := by
  simp only [evict, if_pos hrefused, and_self]

theorem noAttr_evict_of_not_refused [OfNat T 0] {m : SetMap K T} {calls : List (Call K T)}
    (hkept : ¬ Refused calls []) :
    (m.evict calls).noAttr = m.noAttr ∧ (m.evict calls).touched = m.touched := by
  simp only [evict, if_neg hkept, and_self]

/-- What each operation does to the map and what it returns. -/
def Step [OfNat T 0] [Add T] [Sub T] (m : SetMap K T) :
    ScalarOp K T → Out K T → SetMap K T → Prop
  | .add value attrs, out, m' => out = .unit ∧ m' = m.write attrs (· + value)
  | .sub value attrs, out, m' => out = .unit ∧ m' = m.write attrs (· - value)
  | .set value attrs, out, m' => out = .unit ∧ m' = m.write attrs fun _ => value
  | .reset attrs, out, m' =>
      out = .value (m.valueAt attrs) ∧
        -- Resetting the value of no attributes does not count as a write.
        m' = if attrs.isEmpty then { m with noAttr := 0 }
          else m.update attrs.toFinset fun _ => 0
  | .clear, out, m' => out = .unit ∧ m' = empty
  | .take, out, m' =>
      (∃ order, m.Enumerates order ∧
        out = .taken (order.map shown) (if m.touched then some m.noAttr else none)) ∧
        m' = empty
  | .visitBucket cb, out, m' =>
      ∃ order calls, m.Enumerates order ∧
        calls = callEach cb [] (order.map shown ++ m.shownNoAttr) ∧
        out = .visited calls ∧ m' = m.evict calls

/-- A run of operations with what each of them returned. -/
inductive Runs [OfNat T 0] [Add T] [Sub T] :
    SetMap K T → List (ScalarOp K T) → List (Out K T) → SetMap K T → Prop
  | /-- Nothing was called. -/
    nil (m : SetMap K T) : Runs m [] [] m
  | /-- One operation, then the rest. -/
    cons {m middle last : SetMap K T} {op : ScalarOp K T} {out : Out K T}
      {ops : List (ScalarOp K T)} {outs : List (Out K T)} (hstep : m.Step op out middle)
      (hrest : Runs middle ops outs last) : Runs m (op :: ops) (out :: outs) last

end SetMap

end Ohnotel
