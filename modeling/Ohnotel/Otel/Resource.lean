/-
# The attributes of a resource

A resource has typed fields and a list of attributes.  Converted, it is one list: the
attributes are put in first, in their order, then the fields that are set, each under the
key that the conventions give it.  A later entry takes the place of an earlier one with its
key; an entry without a key is left out.
-/

import Ohnotel.Foundation.Upsert
import Ohnotel.Otel.Dto

namespace Ohnotel.Otel

open Foundation

structure Resource (F : Type) where
  serviceName : Option String
  serviceNamespace : Option String
  serviceVersion : Option String
  serviceInstanceId : Option String
  telemetrySdkName : Option String
  telemetrySdkLanguage : Option String
  telemetrySdkVersion : Option String
  hostName : Option String
  hostArch : Option String
  osType : Option String
  processExecutableName : Option String
  attributes : List (KeyValue F)

variable {F : Type}

/-- `upsert_key_value`. -/
def upsertKeyValue (attrs : List (KeyValue F)) (kv : KeyValue F) : List (KeyValue F) :=
  if kv.key = "" then attrs else upsert KeyValue.key attrs kv

namespace Resource

def empty : Resource F where
  serviceName := none
  serviceNamespace := none
  serviceVersion := none
  serviceInstanceId := none
  telemetrySdkName := none
  telemetrySdkLanguage := none
  telemetrySdkVersion := none
  hostName := none
  hostArch := none
  osType := none
  processExecutableName := none
  attributes := []

/-- The arguments of `push_attrs!`: the typed fields under their keys. -/
def typedFields (r : Resource F) : List (String × Option String) :=
  [("service.name", r.serviceName),
    ("service.namespace", r.serviceNamespace),
    ("service.version", r.serviceVersion),
    ("service.instance.id", r.serviceInstanceId),
    ("telemetry.sdk.name", r.telemetrySdkName),
    ("telemetry.sdk.language", r.telemetrySdkLanguage),
    ("telemetry.sdk.version", r.telemetrySdkVersion),
    ("host.name", r.hostName),
    ("host.arch", r.hostArch),
    ("os.type", r.osType),
    ("process.executable.name", r.processExecutableName)]

/-- `push_attrs!`. -/
def pushAttrs (attrs : List (KeyValue F)) :
    List (String × Option String) → List (KeyValue F)
  | [] => attrs
  | (_, none) :: rest => pushAttrs attrs rest
  | (key, some value) :: rest =>
      pushAttrs (upsertKeyValue attrs ⟨key, some (.string value)⟩) rest

/-- `into_attributes`. -/
def intoAttributes (r : Resource F) : List (KeyValue F) :=
  pushAttrs (r.attributes.foldl upsertKeyValue []) r.typedFields

/-- `From<Resource>`: the attributes of the protocol's resource. -/
def intoProto (r : Resource F) : List (Attribute F) := mapAttrs r.intoAttributes

/-! ## What a resource says -/

/-- The typed field that is set under a key. -/
def typed (r : Resource F) (key : String) : Option String := (r.typedFields.lookup key).join

/-- What a resource says under a key: its typed field if one is set, and otherwise the last
of its attributes. -/
def entry (r : Resource F) (key : String) : Option (KeyValue F) :=
  match r.typed key with
  | some value => some ⟨key, some (.string value)⟩
  | none => if key = "" then none else (r.attributes.filter fun kv => kv.key = key).getLast?

/-- The entries of the fields that are set. -/
def setOf (fields : List (String × Option String)) : List (KeyValue F) :=
  fields.filterMap fun field => field.2.map fun value => ⟨field.1, some (.string value)⟩

def setFields (r : Resource F) : List (KeyValue F) := setOf r.typedFields

/-- A list that says what the resource says, once: first what comes from its attributes, in
the order in which their keys first occur, then what only a typed field says. -/
structure Says (r : Resource F) (attrs : List (KeyValue F)) : Prop where
  distinct : (attrs.map KeyValue.key).Nodup
  nonempty : ∀ kv ∈ attrs, kv.key ≠ ""
  entries : ∀ kv, kv ∈ attrs ↔ r.entry kv.key = some kv
  order : attrs.map KeyValue.key =
    ((r.attributes.map KeyValue.key).filter (· ≠ "")).eraseDups ++
      (r.setFields.map KeyValue.key).filter fun key => key ∉ r.attributes.map KeyValue.key

/-! ## Putting entries in -/

/-- The keys of the typed fields. -/
def typedKeys : List String := (empty : Resource Unit).typedFields.map Prod.fst

theorem map_fst_typedFields (r : Resource F) : r.typedFields.map Prod.fst = typedKeys := rfl

theorem pushAttrs_eq (attrs : List (KeyValue F)) (fields : List (String × Option String)) :
    pushAttrs attrs fields = (setOf fields).foldl upsertKeyValue attrs := by
  induction fields generalizing attrs with
  | nil => rfl
  | cons field rest ih =>
      obtain ⟨key, value⟩ := field
      cases value with
      | none => exact ih attrs
      | some value => exact ih _

theorem sublist_map_setOf (fields : List (String × Option String)) :
    ((setOf fields : List (KeyValue F)).map KeyValue.key).Sublist (fields.map Prod.fst) := by
  induction fields with
  | nil => exact .slnil
  | cons field rest ih =>
      obtain ⟨key, value⟩ := field
      cases value with
      | none => exact ih.cons key
      | some value => exact ih.cons_cons key

/-- Of fields with different keys the one that is set under a key is the last with it. -/
theorem lastWith_setOf {fields : List (String × Option String)}
    (hfields : (fields.map Prod.fst).Nodup) (key : String) :
    lastWith KeyValue.key key (setOf fields : List (KeyValue F)) =
      (fields.lookup key).join.map fun value => ⟨key, some (.string value)⟩ := by
  induction fields with
  | nil => rfl
  | cons field rest ih =>
      obtain ⟨name, value⟩ := field
      obtain ⟨hname, hrest⟩ := List.nodup_cons.mp hfields
      have hnone : lastWith KeyValue.key name (setOf rest : List (KeyValue F)) = none :=
        lastWith_eq_none_iff.mpr fun hmem => hname ((sublist_map_setOf rest).subset hmem)
      by_cases hkey : key = name
      · subst hkey
        rw [List.lookup_cons_self]
        cases value with
        | none => exact hnone
        | some value =>
            show lastWith KeyValue.key key (⟨key, some (.string value)⟩ :: setOf rest) = _
            rw [lastWith_cons, hnone, if_pos rfl]
            rfl
      · have hlookup : ((name, value) :: rest).lookup key = rest.lookup key := by
          rw [List.lookup_cons, beq_false_of_ne hkey]
        rw [hlookup, ← ih hrest]
        cases value with
        | none => rfl
        | some value =>
            show lastWith KeyValue.key key (⟨name, some (.string value)⟩ :: setOf rest) = _
            rw [lastWith_cons, if_neg (Ne.symm hkey), Option.or_none]

/-- The attributes and then the typed fields that are set, but none without a key. -/
def sources (r : Resource F) : List (KeyValue F) :=
  (r.attributes ++ r.setFields).filter fun kv => kv.key ≠ ""

theorem intoAttributes_eq (r : Resource F) :
    r.intoAttributes = r.sources.foldl (upsert KeyValue.key) [] := by
  rw [intoAttributes, pushAttrs_eq, ← List.foldl_append, sources, List.foldl_filter]
  congr 1
  funext attrs kv
  rw [upsertKeyValue]
  by_cases hkey : kv.key = "" <;> simp [hkey]

/-- The typed fields have keys. -/
theorem ne_empty_of_mem_setFields (r : Resource F) {key : String}
    (hkey : key ∈ r.setFields.map KeyValue.key) : key ≠ "" := by
  have hmem : key ∈ typedKeys := by
    rw [← map_fst_typedFields r]
    exact (sublist_map_setOf _).subset hkey
  have hnonempty : ∀ key ∈ typedKeys, key ≠ "" := by decide
  exact hnonempty key hmem

theorem nodup_setFields (r : Resource F) : (r.setFields.map KeyValue.key).Nodup := by
  apply (sublist_map_setOf r.typedFields).nodup
  rw [map_fst_typedFields]
  decide

theorem sources_eq (r : Resource F) :
    r.sources = (r.attributes.filter fun kv => kv.key ≠ "") ++ r.setFields := by
  rw [sources, List.filter_append]
  congr 1
  apply List.filter_eq_self.mpr
  intro kv hkv
  simpa using r.ne_empty_of_mem_setFields (List.mem_map_of_mem hkv)

/-- The last entry with a key is the one the resource says. -/
theorem lastWith_sources (r : Resource F) (key : String) :
    lastWith KeyValue.key key r.sources = r.entry key := by
  have hkeys : (r.typedFields.map Prod.fst).Nodup := by
    rw [map_fst_typedFields]
    decide
  have htyped : lastWith KeyValue.key key r.setFields =
      (r.typed key).map fun value => ⟨key, some (.string value)⟩ := lastWith_setOf hkeys key
  rw [sources_eq, lastWith_append, htyped, entry]
  cases r.typed key with
  | some value => rfl
  | none =>
      rw [Option.map_none, Option.none_or, lastWith, List.filter_filter]
      by_cases hkey : key = ""
      · subst hkey
        rw [if_pos rfl]
        simp
      · rw [if_neg hkey]
        congr 1
        apply List.filter_congr
        intro kv _
        by_cases heq : kv.key = key <;> simp [heq, hkey]

theorem nodup_intoAttributes (r : Resource F) : (r.intoAttributes.map KeyValue.key).Nodup := by
  rw [intoAttributes_eq]
  exact nodup_foldl_upsert (l := []) List.nodup_nil r.sources

theorem ne_empty_of_mem_intoAttributes (r : Resource F) {key : String}
    (hkey : key ∈ r.intoAttributes.map KeyValue.key) : key ≠ "" := by
  rw [intoAttributes_eq, map_foldl_upsert, List.mem_eraseDups] at hkey
  obtain ⟨kv, hkv, rfl⟩ := List.mem_map.mp hkey
  simpa using (List.mem_filter.mp hkv).2

theorem mem_intoAttributes (r : Resource F) (kv : KeyValue F) :
    kv ∈ r.intoAttributes ↔ r.entry kv.key = some kv := by
  rw [intoAttributes_eq, mem_foldl_upsert, lastWith_sources]

/-- The attributes of a resource say what it says: under each key its typed field if one is
set and otherwise the last of its attributes, every key once, first the keys of its
attributes in the order in which they first occur. -/
theorem intoAttributes_says (r : Resource F) : r.Says r.intoAttributes where
  distinct := r.nodup_intoAttributes
  nonempty kv hkv := r.ne_empty_of_mem_intoAttributes (List.mem_map_of_mem hkv)
  entries := r.mem_intoAttributes
  order := by
    have hattributes : (r.attributes.filter fun kv => kv.key ≠ "").map KeyValue.key =
        (r.attributes.map KeyValue.key).filter (· ≠ "") := by
      rw [List.filter_map]
      rfl
    rw [intoAttributes_eq, map_foldl_upsert, sources_eq, List.map_append,
      eraseDups_append_of_nodup r.nodup_setFields, hattributes]
    congr 1
    apply List.filter_congr
    intro key hkey
    simp [r.ne_empty_of_mem_setFields hkey]

example :
    let r : Resource WholeFloat :=
      { (empty : Resource WholeFloat) with
        serviceName := some "shop"
        hostName := some "a"
        attributes :=
          [⟨"zone", some (.int 1)⟩, ⟨"service.name", none⟩, ⟨"", none⟩, ⟨"zone", none⟩] }
    r.intoAttributes =
      [⟨"zone", none⟩, ⟨"service.name", some (.string "shop")⟩,
        ⟨"host.name", some (.string "a")⟩] := rfl

theorem key_of_entry {r : Resource F} {key : String} {kv : KeyValue F}
    (h : r.entry key = some kv) : kv.key = key := by
  rw [← lastWith_sources, lastWith] at h
  simpa using List.of_mem_filter (List.mem_of_getLast? h)

/-- Resources that go out alike say the same. -/
theorem entry_eq_of_intoProto_eq {r r' : Resource F} (h : r.intoProto = r'.intoProto)
    (key : String) : r.entry key = r'.entry key := by
  have hattrs : r.intoAttributes = r'.intoAttributes := mapAttrs_injective h
  have hentry : ∀ (r : Resource F) (kv : KeyValue F),
      r.entry key = some kv ↔ kv ∈ r.intoAttributes ∧ kv.key = key := by
    intro r kv
    rw [r.mem_intoAttributes kv]
    refine ⟨fun h => ?_, fun ⟨h, hkey⟩ => hkey ▸ h⟩
    have hkey := key_of_entry h
    exact ⟨hkey ▸ h, hkey⟩
  apply Option.ext
  intro kv
  rw [hentry, hentry, hattrs]

end Resource

end Ohnotel.Otel
