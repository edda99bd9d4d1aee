/-
# Names, numbers and labels

Sanitized names are names, the texts of numbers are numbers, and the labels that are
rendered for a point are those of its attributes that have a value, sorted by name, no
name twice.
-/

import Ohnotel.Prometheus.Exposition

namespace Ohnotel.Prometheus

open Foundation

/-! ## Names -/

section Sanitize

variable {starts kept : Char → Bool}

/-- What is kept are the characters of a name, and what is put in the place of the others
may start one. -/
theorem isName_sanitize (hkept : ∀ c, kept c = (starts c || c.isDigit)) (hstarts : starts '_')
    {text : Text} (hne : text ≠ []) : isName starts (sanitize kept text) := by
  have hmapped : ∀ rest : Text, (rest.map fun c => if kept c then c else '_').all
      (fun c => starts c || c.isDigit) := by
    intro rest
    rw [List.all_map, List.all_eq_true]
    intro c _
    by_cases hc : kept c = true
    · simp [hc, ← hkept]
    · simp [hc, hstarts]
  cases text with
  | nil => exact absurd rfl hne
  | cons c rest =>
      rw [sanitize]
      by_cases hdigit : c.isDigit
      · rw [if_pos hdigit, List.singleton_append, isName, hstarts, hmapped]
        rfl
      · rw [if_neg hdigit, List.nil_append, List.map_cons, isName, hmapped, Bool.and_true]
        by_cases hc : kept c = true
        · have hc' := hc
          rw [hkept, Bool.or_eq_true] at hc'
          rw [if_pos hc]
          exact hc'.resolve_right hdigit
        · rw [if_neg hc]
          exact hstarts

/-- A name stays one if characters of a name are put behind it. -/
theorem isName_append {name : Text} (hname : isName starts name) {suffix : Text}
    (hsuffix : ∀ c ∈ suffix, (starts c || c.isDigit) = true) : isName starts (name ++ suffix) := by
  cases name with
  | nil => simp [isName] at hname
  | cons c rest =>
      rw [isName, Bool.and_eq_true] at hname
      rw [List.cons_append, isName, List.all_append, hname.1, hname.2]
      simpa using hsuffix

end Sanitize

theorem isMetricName_sanitize {name : Text} (hne : name ≠ []) :
    IsMetricName (sanitizeMetricName name) := by
  apply isName_sanitize _ (by decide) hne
  intro c
  simp only [keptInMetricName, startsMetricName, Char.isAlphanum]
  grind

/-- What a suffix of a metric name is made of. -/
theorem isMetricName_append {name suffix : Text} (hname : IsMetricName name)
    (hsuffix : suffix.all fun c => startsMetricName c || c.isDigit) :
    IsMetricName (name ++ suffix) :=
  isName_append hname (List.all_eq_true.mp hsuffix)

theorem Metric.isMetricName_finalName {F : Type} {m : Metric F} (hname : m.id.name ≠ "") :
    IsMetricName m.finalName := by
  have hsanitized : IsMetricName (sanitizeMetricName m.id.name.toList) :=
    isMetricName_sanitize (by simpa using hname)
  simp only [Metric.finalName]
  split
  · exact isMetricName_append hsanitized (by decide)
  · exact hsanitized

/-- A label name that does not start with two underscores. -/
def IsPublicLabelName (name : Text) : Prop := IsLabelName name ∧ ¬ "__".toList <+: name

theorem isPublicLabelName_sanitize {name : Text} (hne : name ≠ []) :
    IsPublicLabelName (sanitizeLabelName name) := by
  have hsanitized : IsLabelName (sanitize keptInLabelName name) := by
    apply isName_sanitize _ (by decide) hne
    intro c
    simp only [keptInLabelName, startsLabelName, Char.isAlphanum]
    grind
  rw [sanitizeLabelName]
  split
  · refine ⟨?_, by simp⟩
    have hlabel : IsLabelName "label".toList := by decide
    exact isName_append hlabel (isName_chars hsanitized)
  · next hreserved => exact ⟨hsanitized, hreserved⟩

/-! ## Numbers -/

section Numbers

variable {F : Type} [Formats F]

/-- What the texts of numbers are made of. -/
def IsNumberChar (c : Char) : Prop := c.isAlphanum ∨ c = '+' ∨ c = '-' ∨ c = '.'

instance (c : Char) : Decidable (IsNumberChar c) := inferInstanceAs (Decidable (_ ∨ _))

/-- The check of one character after the other. -/
theorem isNumberChar_of_all {text : Text}
    (hall : text.all fun c => decide (IsNumberChar c)) : ∀ c ∈ text, IsNumberChar c :=
  fun c hc => of_decide_eq_true (List.all_eq_true.mp hall c hc)

theorem IsNumberChar.ne {c other : Char} (hc : IsNumberChar c) (hother : ¬ IsNumberChar other) :
    c ≠ other := by
  rintro rfl
  exact hother hc

theorem isNumberText_of_chars {text : Text} (hne : text ≠ [])
    (hchars : ∀ c ∈ text, IsNumberChar c) : IsNumberText text := by
  refine ⟨hne, fun c hc => ?_⟩
  have hspace : c ≠ ' ' := (hchars c hc).ne (by decide)
  have htab : c ≠ '\t' := (hchars c hc).ne (by decide)
  have hreturn : c ≠ '\r' := (hchars c hc).ne (by decide)
  have hnewline : c ≠ '\n' := (hchars c hc).ne (by decide)
  refine ⟨by simp [Char.isWhitespace, hspace, htab, hreturn, hnewline], ?_, ?_⟩
  · exact (hchars c hc).ne (by decide)
  · exact (hchars c hc).ne (by decide)

theorem writeF64_of_finite {value : F} (h : Formats.Finite value) :
    writeF64 value = Formats.display value := by
  rw [writeF64, h.1, h.2]
  rfl

theorem writeF64_chars (value : F) :
    writeF64 value ≠ [] ∧ ∀ c ∈ writeF64 value, IsNumberChar c := by
  cases hnan : Formats.isNan value with
  | true =>
      have htext : writeF64 value = "NaN".toList := by rw [writeF64, if_pos hnan]
      rw [htext]
      exact ⟨by decide, isNumberChar_of_all (by decide)⟩
  | false =>
      cases hinfinite : Formats.isInfinite value with
      | true =>
          have htext : writeF64 value =
              if Formats.isSignPositive value then "+Inf".toList else "-Inf".toList := by
            rw [writeF64, hnan, hinfinite]
            rfl
          rw [htext]
          cases Formats.isSignPositive value with
          | true => exact ⟨by decide, isNumberChar_of_all (by decide)⟩
          | false => exact ⟨by decide, isNumberChar_of_all (by decide)⟩
      | false =>
          obtain ⟨hne, hchars⟩ := Formats.display_digits value hnan hinfinite
          rw [writeF64_of_finite ⟨hnan, hinfinite⟩]
          refine ⟨hne, fun c hc => ?_⟩
          rcases hchars c hc with hdigit | rfl | rfl
          · exact .inl (by simp [Char.isAlphanum, hdigit])
          · decide
          · decide

theorem isNumberText_writeF64 (value : F) : IsNumberText (writeF64 value) :=
  isNumberText_of_chars (writeF64_chars value).1 (writeF64_chars value).2

theorem isNumberText_displayU64 (value : UInt64) : IsNumberText (displayU64 value) := by
  apply isNumberText_of_chars Nat.toDigits_ne_nil
  intro c hc
  have hdigit := Nat.isDigit_of_mem_toDigits (by decide) (by decide) hc
  exact .inl (by simp [Char.isAlphanum, hdigit])

/-- A number is the same when escaped. -/
theorem escapeLabelValue_of_chars {text : Text} (hchars : ∀ c ∈ text, IsNumberChar c) :
    escapeLabelValue text = text := by
  apply Escaping.escape_of_plain
  intro c hc
  have hslash : c ≠ '\\' := (hchars c hc).ne (by decide)
  have hquote : c ≠ '"' := (hchars c hc).ne (by decide)
  have hnewline : c ≠ '\n' := (hchars c hc).ne (by decide)
  simp [labelEscaping, hslash, hquote, hnewline]

end Numbers

/-! ## Labels -/

variable {F : Type} [Formats F]

/-- The labels of a point: the attributes that have a value, sorted by name. -/
def DataPoint.labels (point : DataPoint F) : List (Text × Text) :=
  sortOn Prod.fst (point.attrs.filterMap fun attr =>
    attr.value.map fun value => (sanitizeLabelName attr.key.toList, labelText value))

/-- No label of the point is reserved or occurs twice, and all are well named. -/
structure DataPoint.Labelled (point : DataPoint F) : Prop where
  increasing : point.labels.Pairwise fun a b => a.1 < b.1
  names : ∀ label ∈ point.labels, IsPublicLabelName label.1
  unreserved : ∀ label ∈ point.labels, label.1 ∉ point.value.reserved

omit [Formats F] in
/-- The attributes that have a value, under their sanitized names. -/
def valued (attrs : List (KeyValue F)) : List (Text × Value F) :=
  attrs.filterMap fun attr => attr.value.map fun value => (sanitizeLabelName attr.key.toList, value)

/-- The names are label names for anyone to use, and none of them is reserved. -/
def WellNamed {V : Type} (reserved : List Text) (labels : List (Text × V)) : Prop :=
  ∀ label ∈ labels, IsPublicLabelName label.1 ∧ label.1 ∉ reserved

theorem wellNamed_cons {V : Type} {reserved : List Text} {label : Text × V}
    {rest : List (Text × V)} :
    WellNamed reserved (label :: rest) ↔
      (IsPublicLabelName label.1 ∧ label.1 ∉ reserved) ∧ WellNamed reserved rest :=
  List.forall_mem_cons

omit [Formats F] in
/-- The first loop of `render_labels` succeeds exactly if all names are good. -/
theorem collectLabels_eq_ok_iff {metric : Text} {reserved : List Text} {attrs : List (KeyValue F)}
    {labels : List (Text × Value F)} :
    collectLabels metric reserved attrs = .ok labels ↔
      labels = valued attrs ∧ WellNamed reserved (valued attrs) := by
  induction attrs generalizing labels with
  | nil => simp [collectLabels, valued, WellNamed, eq_comm]
  | cons attr rest ih =>
      rw [collectLabels]
      cases hvalue : attr.value with
      | none =>
          have hvalued : valued (attr :: rest) = valued rest := by simp [valued, hvalue]
          rw [hvalued]
          exact ih
      | some value =>
          have hvalued : valued (attr :: rest) =
              (sanitizeLabelName attr.key.toList, value) :: valued rest := by
            simp [valued, hvalue]
          rw [hvalued, wellNamed_cons]
          simp only
          by_cases hkey : attr.key = ""
          · have hempty : ¬ IsPublicLabelName (sanitizeLabelName attr.key.toList) := by
              rw [hkey]
              exact fun h => absurd h.1 (by decide)
            rw [if_pos hkey]
            simp only [hempty, false_and, and_false, reduceCtorEq]
          have hpublic : IsPublicLabelName (sanitizeLabelName attr.key.toList) :=
            isPublicLabelName_sanitize (by simpa using hkey)
          rw [if_neg hkey]
          by_cases hreserved : sanitizeLabelName attr.key.toList ∈ reserved
          · simp [hreserved]
          · rw [if_neg hreserved]
            cases hrest : collectLabels metric reserved rest with
            | error err =>
                have hlater : ¬ WellNamed reserved (valued rest) := by
                  intro hall
                  simp [ih.mpr ⟨rfl, hall⟩] at hrest
                simp [Except.map, hlater]
            | ok later =>
                obtain ⟨rfl, hlater⟩ := ih.mp hrest
                simp [Except.map, hpublic, hreserved, hlater, eq_comm]

/-- The text of a value, with its name. -/
def printed (label : Text × Value F) : Text × Text := (label.1, labelText label.2)

theorem foldl_pushLabel_of_ne_nil {acc : Text} (hacc : acc ≠ []) (labels : List (Text × Value F)) :
    labels.foldl pushLabel acc =
      acc ++ (labels.map printed).flatMap fun label => ',' :: labelPair label := by
  induction labels generalizing acc with
  | nil => simp
  | cons label rest ih =>
      have hpush : pushLabel acc label = acc ++ ',' :: labelPair (printed label) := by
        simp [pushLabel, hacc, labelPair, printed]
      rw [List.foldl_cons, hpush, ih (by simp)]
      simp

theorem foldl_pushLabel (labels : List (Text × Value F)) :
    labels.foldl pushLabel [] = labelsText (labels.map printed) := by
  cases labels with
  | nil => rfl
  | cons label rest =>
      have hpush : pushLabel [] label = labelPair (printed label) := by
        simp [pushLabel, labelPair, printed]
      have hne : labelPair (printed label) ≠ [] := by simp [labelPair]
      rw [List.foldl_cons, hpush, foldl_pushLabel_of_ne_nil hne]
      rfl

theorem DataPoint.labels_eq (point : DataPoint F) :
    point.labels = (sortOn Prod.fst (valued point.attrs)).map printed := by
  have hmap : (sortOn Prod.fst (valued point.attrs)).map printed =
      sortOn Prod.fst ((valued point.attrs).map printed) :=
    map_sortOn (by exact fun _ => rfl) (valued point.attrs)
  rw [hmap, valued, List.map_filterMap]
  simp only [DataPoint.labels, Option.map_map]
  rfl

/-- The labels of a point are good if the names of its attributes are, each for once. -/
theorem DataPoint.labelled_iff (point : DataPoint F) :
    point.Labelled ↔
      WellNamed point.value.reserved (valued point.attrs) ∧
        (sortOn Prod.fst (valued point.attrs)).Pairwise fun a b => a.1 < b.1 := by
  constructor
  · intro h
    have hincreasing := h.increasing
    rw [point.labels_eq, List.pairwise_map] at hincreasing
    refine ⟨fun label hlabel => ?_, hincreasing⟩
    have hmem : printed label ∈ point.labels := by
      rw [point.labels_eq]
      exact List.mem_map_of_mem (mem_sortOn.mpr hlabel)
    exact ⟨h.names _ hmem, h.unreserved _ hmem⟩
  · rintro ⟨hnames, hincreasing⟩
    have hmem : ∀ label ∈ point.labels, ∃ before ∈ valued point.attrs, printed before = label := by
      intro label hlabel
      rw [point.labels_eq] at hlabel
      obtain ⟨before, hbefore, rfl⟩ := List.mem_map.mp hlabel
      exact ⟨before, mem_sortOn.mp hbefore, rfl⟩
    exact
      { increasing := by
          rw [point.labels_eq]
          exact List.pairwise_map.mpr hincreasing
        names := fun label hlabel => by
          obtain ⟨before, hbefore, rfl⟩ := hmem label hlabel
          exact (hnames before hbefore).1
        unreserved := fun label hlabel => by
          obtain ⟨before, hbefore, rfl⟩ := hmem label hlabel
          exact (hnames before hbefore).2 }

/-- `render_labels` succeeds exactly on labelled points, and returns their labels. -/
theorem renderLabels_eq_ok_iff {metric : Text} {point : DataPoint F} {text : Text} :
    renderLabels metric point.attrs point.value.reserved = .ok text ↔
      text = labelsText point.labels ∧ point.Labelled := by
  rw [renderLabels, point.labelled_iff, point.labels_eq]
  cases hcollect : collectLabels metric point.value.reserved point.attrs with
  | error err =>
      have hnames : ¬ WellNamed point.value.reserved (valued point.attrs) := by
        intro hall
        simp [collectLabels_eq_ok_iff.mpr ⟨rfl, hall⟩] at hcollect
      simp [hnames]
  | ok labels =>
      obtain ⟨rfl, hnames⟩ := collectLabels_eq_ok_iff.mp hcollect
      simp only
      cases hrepeat : firstRepeat Prod.fst (sortOn Prod.fst (valued point.attrs)) with
      | some pair =>
          have hdistinct : ¬ (sortOn Prod.fst (valued point.attrs)).Pairwise
              fun a b => a.1 < b.1 := by
            intro hincreasing
            simp [firstRepeat_eq_none hincreasing] at hrepeat
          simp [hdistinct]
      | none =>
          have hincreasing := pairwise_lt_of_firstRepeat_eq_none (pairwise_sortOn _ _) hrepeat
          simp only [foldl_pushLabel]
          constructor
          · exact fun h => ⟨(Except.ok.inj h).symm, hnames, hincreasing⟩
          · exact fun h => congrArg Except.ok h.1.symm

end Ohnotel.Prometheus
