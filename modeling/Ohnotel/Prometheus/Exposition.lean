/-
# The text exposition format

A line of the format is a help line, a type line or a sample.  A line is printed and read
back; read back, it is what was printed, whatever the help text and the label values are,
as long as names are names and numbers are numbers.  So is a list of families, each the
lines that start it and its samples.
-/

import Ohnotel.Prometheus.Dto
import Mathlib.Data.List.Basic

namespace Ohnotel.Prometheus

open Foundation

/-! ## Lines -/

/-- A sample, with its labels in the order in which they are written. -/
structure Sample where
  name : Text
  labels : List (Text × Text)
  number : Text
  deriving DecidableEq

inductive Line
  | help (name : Text) (text : Text)
  | type (name : Text) (kind : Kind)
  | sample (sample : Sample)
  deriving DecidableEq

/-- A family as it is read: its description, if it has one, is what its help line says. -/
structure Family where
  name : Text
  kind : Kind
  description : Option Text
  samples : List Sample
  deriving DecidableEq

/-- One label as it is written. -/
def labelPair (label : Text × Text) : Text :=
  label.1 ++ '=' :: '"' :: (escapeLabelValue label.2 ++ ['"'])

/-- Labels as they are written, with commas between them. -/
def labelsText : List (Text × Text) → Text
  | [] => []
  | label :: rest => labelPair label ++ rest.flatMap fun label => ',' :: labelPair label

def Line.text : Line → Text
  | .help name text => "# HELP ".toList ++ (name ++ ' ' :: escapeHelp text)
  | .type name kind => "# TYPE ".toList ++ (name ++ ' ' :: kindStr kind)
  | .sample s => s.name ++ (inBraces (labelsText s.labels) ++ ' ' :: s.number)

@[simp]
theorem Line.text_help (name text : Text) :
    (Line.help name text).text = "# HELP ".toList ++ (name ++ ' ' :: escapeHelp text) := rfl

@[simp]
theorem Line.text_type (name : Text) (kind : Kind) :
    (Line.type name kind).text = "# TYPE ".toList ++ (name ++ ' ' :: kindStr kind) := rfl

@[simp]
theorem Line.text_sample (s : Sample) :
    (Line.sample s).text = s.name ++ (inBraces (labelsText s.labels) ++ ' ' :: s.number) := rfl

/-- The lines of a family. -/
def Family.lines (family : Family) : List Line :=
  (family.description.map (Line.help family.name)).toList ++
    Line.type family.name family.kind :: family.samples.map Line.sample

/-! ## What is well formed -/

def startsMetricName (c : Char) : Bool := c.isAlpha || c == '_' || c == ':'

def startsLabelName (c : Char) : Bool := c.isAlpha || c == '_'

/-- A character that may start a name, and more that may start one or are digits. -/
def isName (starts : Char → Bool) : Text → Bool
  | [] => false
  | c :: rest => starts c && rest.all fun c => starts c || c.isDigit

/-- `[a-zA-Z_:][a-zA-Z0-9_:]*`. -/
def IsMetricName (name : Text) : Prop := isName startsMetricName name

/-- `[a-zA-Z_][a-zA-Z0-9_]*`. -/
def IsLabelName (name : Text) : Prop := isName startsLabelName name

instance (name : Text) : Decidable (IsMetricName name) := inferInstanceAs (Decidable (_ = true))

instance (name : Text) : Decidable (IsLabelName name) := inferInstanceAs (Decidable (_ = true))

/-- Numbers are taken as they are; they have no whitespace, quotes or commas in them. -/
def IsNumberText (number : Text) : Prop :=
  number ≠ [] ∧ ∀ c ∈ number, c.isWhitespace = false ∧ c ≠ '"' ∧ c ≠ ','

instance (number : Text) : Decidable (IsNumberText number) :=
  inferInstanceAs (Decidable (_ ∧ ∀ c ∈ number, _))

structure Sample.WellFormed (s : Sample) : Prop where
  name : IsMetricName s.name
  labels : ∀ label ∈ s.labels, IsLabelName label.1
  number : IsNumberText s.number

def Line.WellFormed : Line → Prop
  | .help name _ | .type name _ => IsMetricName name
  | .sample s => s.WellFormed

structure Family.WellFormed (family : Family) : Prop where
  name : IsMetricName family.name
  samples : ∀ s ∈ family.samples, s.WellFormed

/-! ## Reading -/

/-- Take a name off a text. -/
def takeName (starts : Char → Bool) (text : Text) : Option (Text × Text) :=
  let name := text.takeWhile fun c => starts c || c.isDigit
  if isName starts name then some (name, text.dropWhile fun c => starts c || c.isDigit)
  else none

/-- Take one character off a text. -/
def expect (c : Char) : Text → Option Text
  | [] => none
  | first :: rest => if first = c then some rest else none

def parseLabel (text : Text) : Option ((Text × Text) × Text) :=
  (takeName startsLabelName text).bind fun taken =>
    (expect '=' taken.2).bind fun rest =>
      (expect '"' rest).bind fun rest =>
        (labelEscaping.unescapeUntil '"' rest).map fun found => ((taken.1, found.1), found.2)

/-- Labels up to the closing brace, at most `fuel` of them. -/
def parseLabels : Nat → Text → Option (List (Text × Text) × Text)
  | 0, _ => none
  | fuel + 1, text =>
      (parseLabel text).bind fun label =>
        match expect ',' label.2 with
        | some rest => (parseLabels fuel rest).map fun found => (label.1 :: found.1, found.2)
        | none => (expect '}' label.2).map fun rest => ([label.1], rest)

/-- The end of a sample line. -/
def parseNumber (name : Text) (labels : List (Text × Text)) (text : Text) : Option Sample :=
  (expect ' ' text).bind fun number =>
    if IsNumberText number then some ⟨name, labels, number⟩ else none

def parseSample (line : Text) : Option Sample :=
  (takeName startsMetricName line).bind fun taken =>
    match expect '{' taken.2 with
    | some rest =>
        (parseLabels rest.length rest).bind fun found => parseNumber taken.1 found.1 found.2
    | none => parseNumber taken.1 [] taken.2

def parseKind (text : Text) : Option Kind :=
  if text = "counter".toList then some .counter
  else if text = "gauge".toList then some .gauge
  else if text = "histogram".toList then some .histogram
  else none

def parseHelp (text : Text) : Option Line :=
  (takeName startsMetricName text).bind fun taken =>
    (expect ' ' taken.2).bind fun text => (helpEscaping.unescape text).map (.help taken.1)

def parseType (text : Text) : Option Line :=
  (takeName startsMetricName text).bind fun taken =>
    (expect ' ' taken.2).bind fun kind => (parseKind kind).map (.type taken.1)

def parseLine (line : Text) : Option Line :=
  match line.dropPrefix? "# HELP ".toList with
  | some text => parseHelp text
  | none =>
      match line.dropPrefix? "# TYPE ".toList with
      | some text => parseType text
      | none => (parseSample line).map .sample

/-- Read a text line by line. -/
def parseLines (text : Text) : Option (List Line) :=
  (splitLines '\n' text).bind fun lines => lines.mapM parseLine

/-- Put one line before the samples and families that were read after it. -/
def placeLine : Line → List Sample × List Family → Option (List Sample × List Family)
  | .sample s, (samples, families) => some (s :: samples, families)
  | .type name kind, (samples, families) => some ([], ⟨name, kind, none, samples⟩ :: families)
  -- A help line stands right before the type line of its family.
  | .help name text, ([], ⟨name', kind, none, samples⟩ :: families) =>
      if name = name' then some ([], ⟨name, kind, some text, samples⟩ :: families) else none
  | .help _ _, _ => none

/-- Put lines before the samples and families that were read after them. -/
def placeLines : List Line → List Sample × List Family → Option (List Sample × List Family)
  | [], later => some later
  | line :: rest, later => (placeLines rest later).bind (placeLine line)

/-- The families of a text; every sample follows a type line. -/
def parse (text : Text) : Option (List Family) :=
  (parseLines text).bind fun lines =>
    match placeLines lines ([], []) with
    | some ([], families) => some families
    | _ => none

/-! ## What is printed is read back -/

section Names

variable {starts : Char → Bool} {name : Text}

theorem isName_chars (hname : isName starts name) :
    ∀ c ∈ name, (starts c || c.isDigit) = true := by
  cases name with
  | nil => simp [isName] at hname
  | cons first rest =>
      rw [isName, Bool.and_eq_true, List.all_eq_true] at hname
      intro c hc
      rcases List.mem_cons.mp hc with rfl | hc
      · simp [hname.1]
      · exact hname.2 c hc

theorem not_mem_name (hname : isName starts name) {c : Char}
    (hc : (starts c || c.isDigit) = false) : c ∉ name := by
  intro hmem
  simp [isName_chars hname c hmem] at hc

theorem takeName_append (hname : isName starts name) {stop : Char}
    (hstop : (starts stop || stop.isDigit) = false) (rest : Text) :
    takeName starts (name ++ stop :: rest) = some (name, stop :: rest) := by
  have htake : (name ++ stop :: rest).takeWhile (fun c => starts c || c.isDigit) = name := by
    rw [List.takeWhile_append_of_pos (isName_chars hname),
      List.takeWhile_cons_of_neg (by simp [hstop]), List.append_nil]
  have hdrop :
      (name ++ stop :: rest).dropWhile (fun c => starts c || c.isDigit) = stop :: rest := by
    rw [List.dropWhile_append_of_pos (isName_chars hname),
      List.dropWhile_cons_of_neg (by simp [hstop])]
  simp only [takeName, htake, hdrop, if_pos hname]

end Names

@[simp]
theorem expect_self (c : Char) (rest : Text) : expect c (c :: rest) = some rest := if_pos rfl

theorem expect_of_ne {c first : Char} (h : first ≠ c) (rest : Text) :
    expect c (first :: rest) = none := if_neg h

section Labels

theorem labelsText_cons_cons (first second : Text × Text) (rest : List (Text × Text)) :
    labelsText (first :: second :: rest) =
      labelPair first ++ ',' :: labelsText (second :: rest) := by
  simp [labelsText]

theorem length_labelPair_pos (label : Text × Text) : 0 < (labelPair label).length := by
  rw [labelPair, List.length_append, List.length_cons]
  omega

theorem labelsText_ne_nil {labels : List (Text × Text)} (hlabels : labels ≠ []) :
    labelsText labels ≠ [] := by
  cases labels with
  | nil => exact absurd rfl hlabels
  | cons label rest => simp [labelsText, labelPair]

theorem length_le_labelsText (labels : List (Text × Text)) :
    labels.length ≤ (labelsText labels).length := by
  induction labels with
  | nil => exact Nat.le_refl 0
  | cons label rest ih =>
      have hpair := length_labelPair_pos label
      cases rest with
      | nil =>
          rw [labelsText, List.length_append, List.length_singleton]
          omega
      | cons second more =>
          have hcomma : (',' :: labelsText (second :: more)).length =
              (labelsText (second :: more)).length + 1 := List.length_cons
          rw [labelsText_cons_cons, List.length_append, List.length_cons, hcomma]
          omega

theorem parseLabel_labelPair {label : Text × Text} (hname : IsLabelName label.1) (rest : Text) :
    parseLabel (labelPair label ++ rest) = some (label, rest) := by
  have htext : labelPair label ++ rest =
      label.1 ++ '=' :: '"' :: (labelEscaping.escape label.2 ++ '"' :: rest) := by
    simp [labelPair, escapeLabelValue]
  rw [htext, parseLabel, takeName_append hname (by decide), Option.bind_some, expect_self,
    Option.bind_some, expect_self, Option.bind_some,
    Escaping.unescapeUntil_escape (by decide) (by decide), Option.map_some]

/-- Labels are read back up to the brace that ends them. -/
theorem parseLabels_labelsText {labels : List (Text × Text)} (hne : labels ≠ [])
    (hnames : ∀ label ∈ labels, IsLabelName label.1) (rest : Text) {fuel : Nat}
    (hfuel : labels.length ≤ fuel) :
    parseLabels fuel (labelsText labels ++ '}' :: rest) = some (labels, rest) := by
  induction labels generalizing fuel with
  | nil => exact absurd rfl hne
  | cons label later ih =>
      obtain ⟨fuel, rfl⟩ := Nat.exists_eq_add_of_lt hfuel
      have hlabel := hnames label List.mem_cons_self
      cases later with
      | nil =>
          have htext : labelsText [label] = labelPair label := by simp [labelsText]
          rw [htext, parseLabels, parseLabel_labelPair hlabel, Option.bind_some,
            expect_of_ne (by decide), expect_self, Option.map_some]
      | cons second more =>
          have hlater : parseLabels ((second :: more).length + fuel)
              (labelsText (second :: more) ++ '}' :: rest) = some (second :: more, rest) :=
            ih (by simp) (fun l hl => hnames l (List.mem_cons_of_mem label hl))
              (Nat.le_add_right _ _)
          rw [labelsText_cons_cons, List.append_assoc, parseLabels, parseLabel_labelPair hlabel,
            Option.bind_some, List.cons_append, expect_self]
          simp only [hlater, Option.map_some]

end Labels

section Lines

theorem parseNumber_text {s : Sample} (hnumber : IsNumberText s.number) :
    parseNumber s.name s.labels (' ' :: s.number) = some s := by
  rw [parseNumber, expect_self, Option.bind_some, if_pos hnumber]

theorem parseSample_text {s : Sample} (h : s.WellFormed) :
    parseSample (Line.sample s).text = some s := by
  rw [Line.text_sample, inBraces]
  by_cases hlabels : s.labels = []
  · have htext : (labelsText s.labels).isEmpty = true := by simp [hlabels, labelsText]
    have hparse := parseNumber_text h.number
    rw [hlabels] at hparse
    rw [if_pos htext, List.nil_append, parseSample, takeName_append h.name (by decide),
      Option.bind_some, expect_of_ne (by decide)]
    exact hparse
  · have htext : ¬ (labelsText s.labels).isEmpty = true := by
      simpa using labelsText_ne_nil hlabels
    have hline : ('{' :: labelsText s.labels ++ ['}']) ++ ' ' :: s.number =
        '{' :: (labelsText s.labels ++ '}' :: ' ' :: s.number) := by
      simp
    have hfuel : s.labels.length ≤ (labelsText s.labels ++ '}' :: ' ' :: s.number).length := by
      rw [List.length_append]
      exact (length_le_labelsText s.labels).trans (Nat.le_add_right _ _)
    rw [if_neg htext, hline, parseSample, takeName_append h.name (by decide), Option.bind_some,
      expect_self]
    simp only [parseLabels_labelsText hlabels h.labels (' ' :: s.number) hfuel, Option.bind_some]
    exact parseNumber_text h.number

theorem parseKind_kindStr (kind : Kind) : parseKind (kindStr kind) = some kind := by
  cases kind <;> decide

theorem parseHelp_text {name : Text} (h : IsMetricName name) (text : Text) :
    parseHelp (name ++ ' ' :: escapeHelp text) = some (.help name text) := by
  rw [parseHelp, takeName_append h (by decide), Option.bind_some, expect_self, Option.bind_some,
    escapeHelp, Escaping.unescape_escape, Option.map_some]

theorem parseType_text {name : Text} (h : IsMetricName name) (kind : Kind) :
    parseType (name ++ ' ' :: kindStr kind) = some (.type name kind) := by
  rw [parseType, takeName_append h (by decide), Option.bind_some, expect_self, Option.bind_some,
    parseKind_kindStr, Option.map_some]

/-- No name starts like a comment. -/
theorem dropPrefix_comment {name : Text} (h : IsMetricName name) (rest comment : Text) :
    (name ++ rest).dropPrefix? ('#' :: comment) = none := by
  cases name with
  | nil => simp [IsMetricName, isName] at h
  | cons c later =>
      have hne : c ≠ '#' := by
        rintro rfl
        have hstarts : startsMetricName '#' = false := by decide
        simp [IsMetricName, isName, hstarts] at h
      simp [List.dropPrefix?, hne]

/-- A line is read back as what was printed. -/
theorem parseLine_text {line : Line} (h : line.WellFormed) : parseLine line.text = some line := by
  cases line with
  | help name text =>
      rw [Line.text_help, parseLine, List.dropPrefix?_append_of_beq _ (beq_self_eq_true _)]
      exact parseHelp_text h text
  | type name kind =>
      have hhelp : (Line.type name kind).text.dropPrefix? "# HELP ".toList = none := rfl
      rw [parseLine, hhelp, Line.text_type]
      simp only [List.dropPrefix?_append_of_beq _ (beq_self_eq_true "# TYPE ".toList)]
      exact parseType_text h kind
  | sample s =>
      have hhelp : (Line.sample s).text.dropPrefix? "# HELP ".toList = none :=
        dropPrefix_comment h.name _ _
      have htype : (Line.sample s).text.dropPrefix? "# TYPE ".toList = none :=
        dropPrefix_comment h.name _ _
      rw [parseLine, hhelp, htype]
      simp only [parseSample_text h, Option.map_some]

theorem newline_not_mem_labelPair {label : Text × Text} (hname : IsLabelName label.1) :
    '\n' ∉ labelPair label := by
  have hlabel : '\n' ∉ label.1 := not_mem_name hname (by decide)
  have hvalue : '\n' ∉ escapeLabelValue label.2 :=
    Escaping.not_mem_escape (by decide) (by decide) (by simp [labelEscaping]; grind) label.2
  simp [labelPair, hlabel, hvalue]

/-- No line has a newline in it. -/
theorem newline_not_mem_text {line : Line} (h : line.WellFormed) : '\n' ∉ line.text := by
  cases line with
  | help name text =>
      have hname : '\n' ∉ name := not_mem_name h (by decide)
      have htext : '\n' ∉ escapeHelp text :=
        Escaping.not_mem_escape (by decide) (by decide) (by simp [helpEscaping]; grind) text
      simp [hname, htext]
  | type name kind =>
      have hname : '\n' ∉ name := not_mem_name h (by decide)
      have hkind : '\n' ∉ kindStr kind := by cases kind <;> decide
      simp [hname, hkind]
  | sample s =>
      have hname : '\n' ∉ s.name := not_mem_name h.name (by decide)
      have hnumber : '\n' ∉ s.number := fun hmem => by simpa using (h.number.2 _ hmem).1
      have hlabels : '\n' ∉ labelsText s.labels := by
        cases hs : s.labels with
        | nil => simp [labelsText]
        | cons label rest =>
            have hpair : ∀ l ∈ label :: rest, '\n' ∉ labelPair l := fun l hl =>
              newline_not_mem_labelPair (h.labels l (hs ▸ hl))
            simp only [List.forall_mem_cons] at hpair
            simpa [labelsText, hpair.1] using hpair.2
      have hbraces : '\n' ∉ inBraces (labelsText s.labels) := by
        rw [inBraces]
        split
        · simp
        · simp [hlabels]
      simp [hname, hnumber, hbraces]

end Lines

section Families

/-- A text of lines is read back line by line. -/
theorem parseLines_unlines {lines : List Line} (h : ∀ line ∈ lines, line.WellFormed) :
    parseLines (unlines '\n' (lines.map Line.text)) = some lines := by
  have hsplit : splitLines '\n' (unlines '\n' (lines.map Line.text)) =
      some (lines.map Line.text) := by
    apply splitLines_unlines
    intro text htext
    obtain ⟨line, hline, rfl⟩ := List.mem_map.mp htext
    exact newline_not_mem_text (h line hline)
  rw [parseLines, hsplit, Option.bind_some]
  clear hsplit
  induction lines with
  | nil => rfl
  | cons line rest ih =>
      rw [List.map_cons, List.mapM_cons, parseLine_text (h line List.mem_cons_self),
        ih fun other hother => h other (List.mem_cons_of_mem line hother)]
      rfl

theorem placeLines_append (first second : List Line) (later : List Sample × List Family) :
    placeLines (first ++ second) later = (placeLines second later).bind (placeLines first) := by
  induction first with
  | nil => simp [placeLines]
  | cons line rest ih =>
      rw [List.cons_append, placeLines, ih, Option.bind_assoc]
      rfl

theorem placeLines_samples (samples : List Sample) (families : List Family) :
    placeLines (samples.map Line.sample) ([], families) = some (samples, families) := by
  induction samples with
  | nil => rfl
  | cons s rest ih => rw [List.map_cons, placeLines, ih]; rfl

theorem placeLines_family (family : Family) (families : List Family) :
    placeLines family.lines ([], families) = some ([], family :: families) := by
  obtain ⟨name, kind, description, samples⟩ := family
  rw [Family.lines, placeLines_append, placeLines, placeLines_samples]
  cases description with
  | none => rfl
  | some text => simp [placeLines, placeLine]

/-- Families are read back from their lines. -/
theorem placeLines_families (families : List Family) :
    placeLines (families.flatMap Family.lines) ([], []) = some ([], families) := by
  induction families with
  | nil => rfl
  | cons family rest ih =>
      rw [List.flatMap_cons, placeLines_append, ih, Option.bind_some, placeLines_family]

theorem Family.WellFormed.lines {family : Family} (h : family.WellFormed) :
    ∀ line ∈ family.lines, line.WellFormed := by
  intro line hline
  rw [Family.lines, List.mem_append, Option.mem_toList, Option.map_eq_some_iff, List.mem_cons,
    List.mem_map] at hline
  rcases hline with ⟨_, _, rfl⟩ | rfl | ⟨s, hs, rfl⟩
  · exact h.name
  · exact h.name
  · exact h.samples s hs

/-- The lines of well-formed families are read back as the families they are from. -/
theorem parse_families {families : List Family} (h : ∀ family ∈ families, family.WellFormed) :
    parse (unlines '\n' ((families.flatMap Family.lines).map Line.text)) = some families := by
  have hlines : ∀ line ∈ families.flatMap Family.lines, line.WellFormed := by
    intro line hline
    obtain ⟨family, hfamily, hmem⟩ := List.mem_flatMap.mp hline
    exact (h family hfamily).lines line hmem
  rw [parse, parseLines_unlines hlines, Option.bind_some, placeLines_families]

end Families

end Ohnotel.Prometheus
