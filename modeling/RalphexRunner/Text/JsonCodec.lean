import Mathlib.Data.List.Nodup
import RalphexRunner.Text.JsonValue

/-!
# Types as JSON

A `Codec` writes the values of a type as JSON and reads them back, and carries the proof that it
does.  A `Record` is the same for the members of an object: it names the members it heeds, so what
else an object holds, and in which order, makes no difference to what is read.  Records are put
together member by member.
-/

namespace RalphexRunner.Json

namespace Value

def text? : Value → Option Text
  | .string text => some text
  | _ => none

def bool? : Value → Option Bool
  | .bool value => some value
  | _ => none

def nat? : Value → Option ℕ
  | .number value => value.toNat?
  | _ => none

def items? : Value → Option (List Value)
  | .array items => some items
  | _ => none

/-- The members of an object, or of an array that holds them in the order of their names. -/
def fields? (names : List Text) : Value → Option (List (Text × Value))
  | .object fields => some fields
  | .array items => if items.length ≤ names.length then some (names.zip items) else none
  | _ => none

/-- The variant of an enumeration and what it holds: a name alone, or an object with one member. -/
def variant? : Value → Option (Text × Value)
  | .string name => some (name, .null)
  | .object [field] => some field
  | _ => none

def orNull {α : Type} (decode : Value → Option α) : Value → Option (Option α)
  | .null => some none
  | other => (decode other).map some

theorem orNull_of_ne {α : Type} (decode : Value → Option α) {value : Value} (h : value ≠ .null) :
    orNull decode value = (decode value).map some := by
  cases value with
  | null => exact absurd rfl h
  | _ => rfl

end Value

/-- The values of a type as JSON. -/
structure Codec (α : Type) where
  encode : α → Value
  decode : Value → Option α
  decode_encode (value : α) : decode (encode value) = some value

namespace Codec

variable {α β : Type}

def text : Codec Text where
  encode := .string
  decode := Value.text?
  decode_encode _ := rfl

def bool : Codec Bool where
  encode := .bool
  decode := Value.bool?
  decode_encode _ := rfl

def below (bound : ℕ) : Codec (Fin bound) where
  encode value := .number (.ofNat value)
  decode value := value.nat?.bind fun value ↦ if h : value < bound then some ⟨value, h⟩ else none
  decode_encode value := by
    rw [Value.nat?, Number.toNat?_ofNat, Option.bind_some, dif_pos value.isLt]

def named (names : List (Text × α)) (name : α → Text)
    (hname : ∀ value, names.find? (·.1 = name value) = some (name value, value)) : Codec α where
  encode value := .string (name value)
  decode value := value.variant?.bind fun variant ↦
    match variant.2 with
    | .null => (names.find? (·.1 = variant.1)).map Prod.snd
    | _ => none
  decode_encode value := by
    rw [Value.variant?, Option.bind_some, hname, Option.map_some]

/-- A value that may be null. -/
def option (codec : Codec α) (hnull : codec.decode .null = none) : Codec (Option α) where
  encode value := (value.map codec.encode).getD .null
  decode := Value.orNull codec.decode
  decode_encode value := by
    cases value with
    | none => rfl
    | some value =>
        have hvalue := codec.decode_encode value
        have hne : codec.encode value ≠ .null := fun hencode ↦ by
          rw [hencode, hnull] at hvalue
          cases hvalue
        rw [Option.map_some, Option.getD_some, Value.orNull_of_ne _ hne, hvalue, Option.map_some]

/-- The same values under another type. -/
def map (codec : Codec α) (make : α → β) (back : β → α) (h : ∀ value, make (back value) = value) :
    Codec β where
  encode value := codec.encode (back value)
  decode value := (codec.decode value).map make
  decode_encode value := by rw [codec.decode_encode, Option.map_some, h]

theorem mapM_decode_encode (codec : Codec α) (values : List α) :
    (values.map codec.encode).mapM codec.decode = some values := by
  induction values with
  | nil => rfl
  | cons value values ih =>
      rw [List.map_cons, List.mapM_cons, codec.decode_encode, ih]
      rfl

def list (codec : Codec α) : Codec (List α) where
  encode values := .array (values.map codec.encode)
  decode value := value.items?.bind fun items ↦ items.mapM codec.decode
  decode_encode := codec.mapM_decode_encode

/-- Two values as an array. -/
def pair (first : Codec α) (second : Codec β) : Codec (α × β) where
  encode value := .array [first.encode value.1, second.encode value.2]
  decode value := value.items?.bind fun items ↦
    if items.length = 2 then
      (items.head?.bind first.decode).bind fun one ↦
        ((items.drop 1).head?.bind second.decode).map (one, ·)
    else none
  decode_encode value := by
    simp only [Value.items?, Option.bind_some, List.length_cons, List.length_nil, if_true,
      List.head?_cons, List.drop_succ_cons, List.drop_zero, first.decode_encode,
      second.decode_encode, Option.map_some]

def bytes (codec : Codec α) (value : α) : List UInt8 := Utf8.encode (write (codec.encode value))

/-- The value some bytes are, if they are one. -/
def read (codec : Codec α) (bytes : List UInt8) : Option α := (readBytes bytes).bind codec.decode

/-- What is sent is read back. -/
theorem read_bytes (codec : Codec α) (value : α) : codec.read (codec.bytes value) = some value := by
  rw [read, bytes, readBytes_write, Option.bind_some, codec.decode_encode]

/-- No two values are sent as the same bytes. -/
theorem bytes_injective (codec : Codec α) : Function.Injective codec.bytes := by
  intro first second hsame
  have hfirst := codec.read_bytes first
  rw [hsame, codec.read_bytes second] at hfirst
  exact Option.some.inj hfirst.symm

end Codec

def under (name : Text) (fields : List (Text × Value)) : List Value :=
  (fields.filter fun field ↦ field.1 = name).map Prod.snd

/-- Two objects hold the same under every name of a list. -/
def SameUnder (names : List Text) (first second : List (Text × Value)) : Prop :=
  ∀ name ∈ names, under name first = under name second

theorem under_append (name : Text) (first second : List (Text × Value)) :
    under name (first ++ second) = under name first ++ under name second := by
  rw [under, List.filter_append, List.map_append, under, under]

theorem under_eq_nil {name : Text} {fields : List (Text × Value)}
    (h : name ∉ fields.map Prod.fst) : under name fields = [] := by
  rw [under, List.filter_eq_nil_iff.mpr, List.map_nil]
  intro field hfield hname
  exact h (List.mem_map.mpr ⟨field, hfield, of_decide_eq_true hname⟩)

theorem eq_of_perm_of_length_le {α : Type} {first second : List α} (hperm : first.Perm second)
    (hshort : first.length ≤ 1) : first = second := by
  cases first with
  | nil => exact hperm.nil_eq
  | cons value rest =>
      cases rest with
      | nil => exact List.singleton_perm.mp hperm
      | cons other rest => exact absurd hshort (by simp)

/-- A name that is used once at most is so wherever it stands. -/
theorem under_perm {first second : List (Text × Value)} (hperm : first.Perm second) {name : Text}
    (hshort : (under name first).length ≤ 1) : under name first = under name second :=
  eq_of_perm_of_length_le ((hperm.filter _).map _) hshort

theorem length_under_le {fields : List (Text × Value)} (h : (fields.map Prod.fst).Nodup)
    (name : Text) : (under name fields).length ≤ 1 := by
  have hnames : ((fields.filter fun field ↦ field.1 = name).map Prod.fst).Nodup :=
    h.sublist (List.filter_sublist.map _)
  have hsame : ∀ other ∈ (fields.filter fun field ↦ field.1 = name).map Prod.fst,
      other = name := by
    intro other hother
    obtain ⟨field, hfield, rfl⟩ := List.mem_map.mp hother
    exact of_decide_eq_true (List.mem_filter.mp hfield).2
  rw [List.eq_replicate_of_mem hsame, List.nodup_replicate, List.length_map] at hnames
  rwa [under, List.length_map]

/-- The members of an object as the values of a type. -/
structure Record (α : Type) where
  names : List Text
  encode : α → List (Text × Value)
  decode : List (Text × Value) → Option α
  decode_encode (value : α) : decode (encode value) = some value
  decode_congr {first second : List (Text × Value)} (h : SameUnder names first second) :
    decode first = decode second
  names_encode (value : α) : (encode value).map Prod.fst ⊆ names
  nodup_encode (value : α) : ((encode value).map Prod.fst).Nodup

namespace Record

variable {α β : Type}

/-- A member that must be there, once. -/
def required (name : Text) (codec : Codec α) : Record α where
  names := [name]
  encode value := [(name, codec.encode value)]
  decode fields :=
    match under name fields with
    | [value] => codec.decode value
    | _ => none
  decode_encode value := by
    simp only [under, List.filter_cons, decide_true, if_true, List.filter_nil, List.map_cons,
      List.map_nil, codec.decode_encode]
  decode_congr h := by rw [h name (List.mem_singleton_self name)]
  names_encode _ := List.Subset.refl _
  nodup_encode _ := List.nodup_singleton _

/-- A member that may be left out, but not given twice. -/
def optional (name : Text) (codec : Codec α) : Record (Option α) where
  names := [name]
  encode value := (value.map fun value ↦ (name, codec.encode value)).toList
  decode fields :=
    match under name fields with
    | [] => some none
    | [value] => (codec.decode value).map some
    | _ => none
  decode_encode value := by
    cases value with
    | none => rfl
    | some value =>
        simp only [Option.map_some, Option.toList_some, under, List.filter_cons, decide_true,
          if_true, List.filter_nil, List.map_cons, List.map_nil, codec.decode_encode]
  decode_congr h := by rw [h name (List.mem_singleton_self name)]
  names_encode value := by
    cases value with
    | none => exact List.nil_subset _
    | some value => exact List.Subset.refl _
  nodup_encode value := by
    cases value with
    | none => exact List.nodup_nil
    | some value => exact List.nodup_singleton _

theorem notMem_of_all {first second : List Text}
    (h : first.all fun name ↦ !second.contains name) {name : Text} (hname : name ∈ first) :
    name ∉ second := by
  simpa using List.all_eq_true.mp h name hname

/-- The members of two records that share no name. -/
def both (first : Record α) (second : Record β)
    (h : first.names.all fun name ↦ !second.names.contains name) : Record (α × β) where
  names := first.names ++ second.names
  encode value := first.encode value.1 ++ second.encode value.2
  decode fields := (first.decode fields).bind fun one ↦ (second.decode fields).map (one, ·)
  decode_encode value := by
    have hfirst : SameUnder first.names (first.encode value.1 ++ second.encode value.2)
        (first.encode value.1) := fun name hname ↦ by
      rw [under_append, under_eq_nil fun hmem ↦ notMem_of_all h hname (second.names_encode _ hmem),
        List.append_nil]
    have hsecond : SameUnder second.names (first.encode value.1 ++ second.encode value.2)
        (second.encode value.2) := fun name hname ↦ by
      rw [under_append, under_eq_nil fun hmem ↦ notMem_of_all h (first.names_encode _ hmem) hname,
        List.nil_append]
    rw [first.decode_congr hfirst, first.decode_encode, Option.bind_some,
      second.decode_congr hsecond, second.decode_encode, Option.map_some]
  decode_congr hsame := by
    rw [first.decode_congr fun name hname ↦ hsame name (List.mem_append_left _ hname),
      second.decode_congr fun name hname ↦ hsame name (List.mem_append_right _ hname)]
  names_encode value := by
    rw [List.map_append]
    exact List.append_subset.mpr
      ⟨List.subset_append_of_subset_left _ (first.names_encode _),
        List.subset_append_of_subset_right _ (second.names_encode _)⟩
  nodup_encode value := by
    rw [List.map_append]
    refine (first.nodup_encode _).append (second.nodup_encode _) fun name hone hother ↦ ?_
    exact notMem_of_all h (first.names_encode _ hone) (second.names_encode _ hother)

/-- The same members for another type. -/
def map (record : Record α) (make : α → β) (back : β → α) (h : ∀ value, make (back value) = value) :
    Record β where
  names := record.names
  encode value := record.encode (back value)
  decode fields := (record.decode fields).map make
  decode_encode value := by rw [record.decode_encode, Option.map_some, h]
  decode_congr hsame := by rw [record.decode_congr hsame]
  names_encode value := record.names_encode (back value)
  nodup_encode value := record.nodup_encode (back value)

/-- A member that is read as a zero value where it is left out, and always written. -/
def defaulted (name : Text) (codec : Codec α) (zero : α) : Record α :=
  (optional name codec).map (·.getD zero) some fun _ ↦ rfl

/-- A member that is left out where there is no value, and may be null. -/
def omitted (name : Text) (codec : Codec α) (hnull : codec.decode .null = none) :
    Record (Option α) :=
  (optional name (codec.option hnull)).map Option.join (Option.map some) fun value ↦ by
    cases value <;> rfl

/-- The object with the members of a record, which is read from an array of them as well. -/
def object (record : Record α) : Codec α where
  encode value := .object (record.encode value)
  decode value := (value.fields? record.names).bind record.decode
  decode_encode := record.decode_encode

section Decoding

variable {name : Text} {fields : List (Text × Value)}

/-- What an object holds under a name: a zero value where it says nothing, or one value. -/
def Gives (name : Text) (codec : Codec α) (zero : α) (fields : List (Text × Value)) (value : α) :
    Prop :=
  under name fields = [] ∧ value = zero ∨
    ∃ one, under name fields = [one] ∧ codec.decode one = some value

theorem required_decode {codec : Codec α} {value : α} :
    (required name codec).decode fields = some value ↔
      ∃ one, under name fields = [one] ∧ codec.decode one = some value := by
  unfold required
  dsimp only
  constructor
  · intro h
    split at h
    · rename_i one hone
      exact ⟨one, hone, h⟩
    · cases h
  · rintro ⟨one, hone, hvalue⟩
    rw [hone]
    exact hvalue

/-- A member that may be left out gives its value, or the zero value. -/
theorem optional_gives {codec : Codec α} {zero value : α} :
    (∃ given, (optional name codec).decode fields = some given ∧ given.getD zero = value) ↔
      Gives name codec zero fields value := by
  unfold optional Gives
  dsimp only
  constructor
  · rintro ⟨given, h, rfl⟩
    split at h
    · rename_i hnone
      rw [← Option.some.inj h]
      exact .inl ⟨hnone, rfl⟩
    · rename_i one hone
      obtain ⟨value, hvalue, rfl⟩ := Option.map_eq_some_iff.mp h
      exact .inr ⟨one, hone, hvalue⟩
    · cases h
  · rintro (⟨hnone, rfl⟩ | ⟨one, hone, hvalue⟩)
    · rw [hnone]
      exact ⟨none, rfl, rfl⟩
    · rw [hone]
      exact ⟨some value, by simp only [hvalue, Option.map_some], rfl⟩

theorem both_decode {first : Record α} {second : Record β}
    {h : first.names.all fun name ↦ !second.names.contains name} {value : α × β} :
    (first.both second h).decode fields = some value ↔
      first.decode fields = some value.1 ∧ second.decode fields = some value.2 := by
  unfold both
  dsimp only
  constructor
  · intro hboth
    obtain ⟨one, hone, hrest⟩ := Option.bind_eq_some_iff.mp hboth
    obtain ⟨other, hother, rfl⟩ := Option.map_eq_some_iff.mp hrest
    exact ⟨hone, hother⟩
  · rintro ⟨hone, hother⟩
    rw [hone, hother]
    rfl

theorem map_decode {record : Record α} {make : α → β} {back : β → α}
    {h : ∀ value, make (back value) = value} {value : β} :
    (record.map make back h).decode fields = some value ↔
      ∃ given, record.decode fields = some given ∧ make given = value :=
  Option.map_eq_some_iff

end Decoding

/-- **Neither the order of the members nor what else an object holds makes a difference.** -/
theorem decode_of_perm (record : Record α) {value : α} {more fields : List (Text × Value)}
    (hmore : ∀ field ∈ more, field.1 ∉ record.names)
    (hperm : (record.encode value ++ more).Perm fields) : record.decode fields = some value := by
  have hsame : SameUnder record.names fields (record.encode value) := by
    intro name hname
    have hnone : under name more = [] := under_eq_nil fun hmem ↦ by
      obtain ⟨field, hfield, rfl⟩ := List.mem_map.mp hmem
      exact hmore field hfield hname
    have hknown : under name (record.encode value ++ more) = under name (record.encode value) := by
      rw [under_append, hnone, List.append_nil]
    have hshort : (under name (record.encode value ++ more)).length ≤ 1 := by
      rw [hknown]
      exact length_under_le (record.nodup_encode value) name
    rw [← under_perm hperm hshort, hknown]
  rw [record.decode_congr hsame, record.decode_encode]

end Record

end RalphexRunner.Json
