/-
# Escaped text

To put an arbitrary text where some symbols have a meaning of their own, each of these
is written as a mark and a code.  The text can be read back, up to its end or up to the
first unmarked occurrence of a symbol that is always escaped.

A text of lines is the lines with a newline after each; it can be taken apart if no line
has a newline in it.
-/

import Mathlib.Logic.Function.Basic

namespace Foundation

universe u

/-- Which symbols are escaped, and how. -/
structure Escaping (α : Type u) where
  /-- What is written before a code. -/
  mark : α
  /-- The code of a symbol that is escaped. -/
  code : α → Option α
  decode : α → Option α
  decode_code : ∀ a b, code a = some b → decode b = some a
  code_mark : (code mark).isSome

namespace Escaping

variable {α : Type u} [DecidableEq α] (e : Escaping α)

omit [DecidableEq α] in
/-- Write a text with its special symbols escaped. -/
def escape : List α → List α
  | [] => []
  | a :: rest =>
      match e.code a with
      | some b => e.mark :: b :: escape rest
      | none => a :: escape rest

/-- Read a whole text back. -/
def unescape : List α → Option (List α)
  | [] => some []
  | a :: rest =>
      if a = e.mark then
        match rest with
        | [] => none
        | b :: later =>
            (e.decode b).bind fun c => (unescape later).map (c :: ·)
      else (unescape rest).map (a :: ·)

/-- Read a text back up to the first unmarked `stop`, and what comes after. -/
def unescapeUntil (stop : α) : List α → Option (List α × List α)
  | [] => none
  | a :: rest =>
      if a = stop then some ([], rest)
      else if a = e.mark then
        match rest with
        | [] => none
        | b :: later =>
            (e.decode b).bind fun c =>
              (unescapeUntil stop later).map fun found => (c :: found.1, found.2)
      else (unescapeUntil stop rest).map fun found => (a :: found.1, found.2)

variable {e}

theorem unescape_mark_cons (b : α) (rest : List α) :
    e.unescape (e.mark :: b :: rest) =
      (e.decode b).bind fun c => (e.unescape rest).map (c :: ·) := by
  simp [unescape]

theorem unescape_cons_of_ne {a : α} (h : a ≠ e.mark) (rest : List α) :
    e.unescape (a :: rest) = (e.unescape rest).map (a :: ·) := by
  cases rest <;> simp [unescape, h]

theorem unescapeUntil_cons_self (stop : α) (rest : List α) :
    e.unescapeUntil stop (stop :: rest) = some ([], rest) := by
  cases rest <;> simp [unescapeUntil]

theorem unescapeUntil_mark_cons {stop : α} (hmark : e.mark ≠ stop) (b : α) (rest : List α) :
    e.unescapeUntil stop (e.mark :: b :: rest) =
      (e.decode b).bind fun c =>
        (e.unescapeUntil stop rest).map fun found => (c :: found.1, found.2) := by
  simp [unescapeUntil, hmark]

theorem unescapeUntil_cons_of_ne {stop a : α} (hstop : a ≠ stop) (h : a ≠ e.mark)
    (rest : List α) :
    e.unescapeUntil stop (a :: rest) =
      (e.unescapeUntil stop rest).map fun found => (a :: found.1, found.2) := by
  cases rest <;> simp [unescapeUntil, hstop, h]

omit [DecidableEq α] in
theorem escape_cons_of_code {a b : α} (h : e.code a = some b) (rest : List α) :
    e.escape (a :: rest) = e.mark :: b :: e.escape rest := by
  simp only [escape, h]

omit [DecidableEq α] in
theorem escape_cons_of_plain {a : α} (h : e.code a = none) (rest : List α) :
    e.escape (a :: rest) = a :: e.escape rest := by
  simp only [escape, h]

omit [DecidableEq α] in
theorem ne_mark_of_plain {a : α} (h : e.code a = none) : a ≠ e.mark := by
  rintro rfl
  simpa [h] using e.code_mark

theorem unescape_escape (text : List α) : e.unescape (e.escape text) = some text := by
  induction text with
  | nil => rfl
  | cons a rest ih =>
      cases hcode : e.code a with
      | some b =>
          rw [escape_cons_of_code hcode, unescape_mark_cons, e.decode_code a b hcode, ih]
          rfl
      | none =>
          rw [escape_cons_of_plain hcode, unescape_cons_of_ne (ne_mark_of_plain hcode), ih]
          rfl

/-- Reading stops at the first `stop` after the text, if `stop` is always escaped. -/
theorem unescapeUntil_escape {stop : α} (hcoded : (e.code stop).isSome) (hmark : e.mark ≠ stop)
    (text rest : List α) :
    e.unescapeUntil stop (e.escape text ++ stop :: rest) = some (text, rest) := by
  induction text with
  | nil => exact unescapeUntil_cons_self stop rest
  | cons a later ih =>
      cases hcode : e.code a with
      | some b =>
          rw [escape_cons_of_code hcode, List.cons_append, List.cons_append,
            unescapeUntil_mark_cons hmark, e.decode_code a b hcode, ih]
          rfl
      | none =>
          have hstop : a ≠ stop := by
            rintro rfl
            simp [hcode] at hcoded
          rw [escape_cons_of_plain hcode, List.cons_append,
            unescapeUntil_cons_of_ne hstop (ne_mark_of_plain hcode), ih]
          rfl

omit [DecidableEq α] in
/-- A symbol that is always escaped and is neither the mark nor a code does not occur in
an escaped text. -/
theorem not_mem_escape {a : α} (hcoded : (e.code a).isSome) (hmark : e.mark ≠ a)
    (hcode : ∀ b, e.code b ≠ some a) (text : List α) : a ∉ e.escape text := by
  induction text with
  | nil => simp [escape]
  | cons first rest ih =>
      cases hfirst : e.code first with
      | some b =>
          have hb : a ≠ b := fun h => hcode first (h ▸ hfirst)
          simp [escape_cons_of_code hfirst, hmark.symm, hb, ih]
      | none =>
          have ha : a ≠ first := by
            rintro rfl
            simp [hfirst] at hcoded
          simp [escape_cons_of_plain hfirst, ha, ih]

omit [DecidableEq α] in
theorem escape_of_plain {text : List α} (h : ∀ a ∈ text, e.code a = none) :
    e.escape text = text := by
  induction text with
  | nil => rfl
  | cons a rest ih =>
      rw [escape_cons_of_plain (h a List.mem_cons_self),
        ih fun b hb => h b (List.mem_cons_of_mem a hb)]

end Escaping

/-! ## Lines -/

section Lines

variable {α : Type u} (newline : α)

/-- The lines with a newline after each. -/
def unlines (lines : List (List α)) : List α := lines.flatMap (· ++ [newline])

@[simp]
theorem unlines_nil : unlines newline [] = [] := rfl

theorem unlines_cons (line : List α) (rest : List (List α)) :
    unlines newline (line :: rest) = line ++ newline :: unlines newline rest := by
  simp [unlines]

theorem unlines_append (first second : List (List α)) :
    unlines newline (first ++ second) = unlines newline first ++ unlines newline second :=
  List.flatMap_append

theorem unlines_flatMap {β : Type u} (f : β → List (List α)) (l : List β) :
    unlines newline (l.flatMap f) = l.flatMap fun b => unlines newline (f b) := by
  simp [unlines, List.flatMap_assoc]

variable [DecidableEq α]

/-- Take a text apart at its newlines; `none` if its last line is not ended. -/
def splitLines : List α → Option (List (List α))
  | [] => some []
  | a :: rest =>
      if a = newline then (splitLines rest).map ([] :: ·)
      else
        match splitLines rest with
        | some (line :: later) => some ((a :: line) :: later)
        | _ => none

variable {newline}

theorem splitLines_append {line : List α} (hline : newline ∉ line) (rest : List α) :
    splitLines newline (line ++ newline :: rest) = (splitLines newline rest).map (line :: ·) := by
  induction line with
  | nil => simp [splitLines]
  | cons a later ih =>
      have hne : a ≠ newline := fun h => hline (h ▸ List.mem_cons_self)
      have hlater : newline ∉ later := fun h => hline (List.mem_cons_of_mem a h)
      rw [List.cons_append, splitLines, if_neg hne, ih hlater]
      cases splitLines newline rest with
      | none => rfl
      | some lines => rfl

theorem splitLines_unlines {lines : List (List α)} (hlines : ∀ line ∈ lines, newline ∉ line) :
    splitLines newline (unlines newline lines) = some lines := by
  induction lines with
  | nil => rfl
  | cons line later ih =>
      rw [unlines_cons, splitLines_append (hlines line List.mem_cons_self),
        ih fun other hother => hlines other (List.mem_cons_of_mem line hother), Option.map_some]

end Lines

end Foundation
