import SearchPipeline.Mapping.Session
import SearchPipeline.Proofs.Json.Restoration

namespace SearchPipeline.Mapping

open Json

-- What is read from a document is read again from the text written for it, as far as it is plain.
def Restores {α : Type} (read : Document → Option α) (write : α → Json) (plain : α → Prop) : Prop :=
  ∀ document value, read document = some value → plain value →
    read (.ofJson (write value)) = some value

section Lists

theorem mapM_ofJson {α : Type} {read : Document → Option α} {write : α → Json} {values : List α}
    (hvalues : ∀ value ∈ values, read (.ofJson (write value)) = some value) :
    (Document.ofJsons (values.map write)).mapM read = some values := by
  induction values with
  | nil => rfl
  | cons value rest ih =>
      rw [List.map_cons, Document.ofJsons, List.mapM_cons, hvalues value (.head _),
        ih fun other hmem => hvalues other (.tail _ hmem)]
      rfl

theorem exists_of_mem_mapM {α : Type} {read : Document → Option α} {documents : List Document}
    {values : List α} (hread : documents.mapM read = some values) {value : α}
    (hmem : value ∈ values) : ∃ document, read document = some value := by
  induction documents generalizing values with
  | nil =>
      cases hread
      cases hmem
  | cons document documents ih =>
      simp only [List.mapM_cons, Option.bind_eq_bind, Option.bind_eq_some_iff] at hread
      obtain ⟨first, hfirst, rest, hrest, hsame⟩ := hread
      cases hsame
      rcases List.mem_cons.1 hmem with rfl | hmem
      · exact ⟨document, hfirst⟩
      · exact ih hrest hmem

theorem Restores.items {α : Type} {item : Nat → Document → Option α} {room : Nat}
    {write : α → Json} {plain : α → Prop} (hitem : Restores (item room) write plain) :
    Restores (items? item (room + 1)) (fun values => .list (values.map write))
      (fun values => ∀ value ∈ values, plain value) := by
  intro document values hread hplain
  cases document with
  | list documents =>
      refine mapM_ofJson fun value hmem => ?_
      obtain ⟨document, hdocument⟩ := exists_of_mem_mapM hread hmem
      exact hitem document value hdocument (hplain value hmem)
  | _ => cases hread

end Lists

namespace Fields

-- The fields of a record that was written with these members.
def written (members : List (String × Json)) : Fields :=
  members.map fun entry => (entry.1, .ofJson entry.2)

@[simp] theorem lookup_written_append (key : String) (front behind : List (String × Json)) :
    (written (front ++ behind)).lookup key =
      ((written front).lookup key).or ((written behind).lookup key) := by
  rw [written, List.map_append, List.lookup_append]
  rfl

@[simp] theorem lookup_written_cons (key other : String) (value : Json)
    (rest : List (String × Json)) : (written ((other, value) :: rest)).lookup key =
      if key = other then some (.ofJson value) else (written rest).lookup key := by
  rw [written, List.map_cons, List.lookup_cons]
  split_ifs with hsame
  · simp [hsame]
  · rw [beq_false_of_ne hsame]
    rfl

@[simp] theorem ofJson_string (text : String) :
    Document.ofJson (.string text) = .string (some text) := by
  rw [Document.ofJson]

@[simp] theorem lookup_written_nil (key : String) : (written []).lookup key = none := rfl

@[simp] theorem lookup_written_text (key other text : String) :
    (written (textMember other text)).lookup key =
      if key = other ∧ text ≠ "" then some (.string (some text)) else none := by
  unfold textMember
  split_ifs with hempty <;> simp_all [Document.ofJson]

@[simp] theorem lookup_written_list (key other : String) (items : List Json) :
    (written (listMember other items)).lookup key =
      if key = other ∧ items ≠ [] then some (.ofJson (.list items)) else none := by
  unfold listMember
  cases items <;> simp

@[simp] theorem lookup_written_option {α : Type} (key other : String) (value : Option α)
    (write : α → Json) : (written (value.toList.map fun value => (other, write value))).lookup key =
      if key = other then value.map fun value => .ofJson (write value) else none := by
  cases value <;> simp

@[simp] theorem lookup_written_json (key other : String) (value : Option Json) :
    (written (value.toList.map fun value => (other, value))).lookup key =
      if key = other then value.map .ofJson else none :=
  lookup_written_option key other value id

theorem lookup_written_eq_none {key : String} {members : List (String × Json)}
    (hkey : key ∉ members.map Prod.fst) : (written members).lookup key = none := by
  induction members with
  | nil => rfl
  | cons entry rest ih =>
      obtain ⟨hne, hrest⟩ := not_or.1 (mt List.mem_cons.2 hkey)
      rw [lookup_written_cons, if_neg hne, ih hrest]

-- Members that are known, each of them once, are all of them fields.
theorem ofDocument?_object {names : List String} {members : List (String × Json)}
    (hkeys : (members.map Prod.fst).Sublist names) (hnames : names.Nodup) :
    ofDocument? names (.ofJson (.object members)) = some (written members) := by
  have hknown := hkeys.subset
  have honce := hkeys.nodup hnames
  rw [Document.ofJson, ofDocument?]
  clear hkeys
  induction members with
  | nil => rfl
  | cons entry rest ih =>
      obtain ⟨hne, hrest⟩ := List.nodup_cons.1 honce
      rw [Document.ofMembers, ofMembers?, ih (fun key hmem => hknown (.tail _ hmem)) hrest]
      simp [hknown (.head _), lookup_written_eq_none hne]
      rfl

theorem read?_given {α : Type} {fields : Fields} {key : String} {default value : α}
    {document : Document} {read : Document → Option α}
    (hlookup : fields.lookup key = some document) (hread : read document = some value) :
    fields.read? key default read = some value := by
  simp only [read?, hlookup, hread]

theorem read?_string {fields : Fields} {key : String} (text : String)
    (hlookup : fields.lookup key = some (.string (some text))) :
    fields.read? key "" string? = some text :=
  read?_given hlookup rfl

-- A field that is left out when it holds its default is read either way.
theorem read?_omitted {α : Type} {fields : Fields} {key : String} {default value : α}
    {document : Document} {read : Document → Option α} (omitted : Prop) [Decidable omitted]
    (hlookup : fields.lookup key = if omitted then none else some document)
    (hdefault : omitted → value = default) (hread : ¬omitted → read document = some value) :
    fields.read? key default read = some value := by
  rw [read?, hlookup]
  split_ifs with h
  · rw [hdefault h]
  · exact hread h

theorem read?_text {fields : Fields} {key : String} (text : String)
    (hlookup : fields.lookup key = if text = "" then none else some (.string (some text))) :
    fields.read? key "" string? = some text :=
  read?_omitted (text = "") hlookup id fun _ => rfl

theorem read?_list {α : Type} {fields : Fields} {key : String} (values : List α)
    {write : α → Json} {read : Document → Option (List α)}
    (hlookup : fields.lookup key =
      if values = [] then none else some (.ofJson (.list (values.map write))))
    (hread : read (.ofJson (.list (values.map write))) = some values) :
    fields.read? key [] read = some values :=
  read?_omitted (values = []) hlookup id fun _ => hread

theorem read?_option {α : Type} {fields : Fields} {key : String} (value : Option α)
    {write : α → Json} {read : Document → Option (Option α)}
    (hlookup : fields.lookup key = value.map fun value => .ofJson (write value))
    (hread : ∀ given, value = some given → read (.ofJson (write given)) = some (some given)) :
    fields.read? key none read = some value := by
  cases value with
  | none => rw [read?, hlookup, Option.map_none]
  | some given => exact read?_given hlookup (hread given rfl)

-- A field holds its default or what its reader made of a document.
theorem read?_eq_some {α : Type} {fields : Fields} {key : String} {default value : α}
    {read : Document → Option α} (hread : fields.read? key default read = some value) :
    value = default ∨ ∃ document, read document = some value := by
  unfold read? at hread
  split at hread
  · next document _ => exact .inr ⟨document, hread⟩
  · exact .inl (Option.some.inj hread).symm

end Fields

-- A list that was read, or left out and so empty, is read again where it is written.
theorem Restores.list {α : Type} {item : Nat → Document → Option α} {room : Nat}
    {write : α → Json} {plain : α → Prop} (hitem : Restores (item room) write plain)
    {fields : Fields} {key : String} {values : List α}
    (hread : fields.read? key [] (items? item (room + 1)) = some values)
    (hplain : ∀ value ∈ values, plain value) :
    items? item (room + 1) (.ofJson (.list (values.map write))) = some values := by
  rcases Fields.read?_eq_some hread with rfl | ⟨document, hdocument⟩
  · rfl
  · exact hitem.items document values hdocument hplain

section Keys

theorem keys_textMember (key text : String) :
    ((textMember key text).map Prod.fst).Sublist [key] := by
  unfold textMember
  split_ifs <;> simp

theorem keys_listMember (key : String) (items : List Json) :
    ((listMember key items).map Prod.fst).Sublist [key] := by
  unfold listMember
  split_ifs <;> simp

theorem keys_option {α : Type} (key : String) (value : Option α) (write : α → Json) :
    ((value.toList.map fun value => (key, write value)).map Prod.fst).Sublist [key] := by
  cases value <;> simp

theorem keys_append {front behind : List (String × Json)} {first rest : List String}
    (hfront : (front.map Prod.fst).Sublist first) (hbehind : (behind.map Prod.fst).Sublist rest) :
    ((front ++ behind).map Prod.fst).Sublist (first ++ rest) := by
  rw [List.map_append]
  exact hfront.append hbehind

end Keys

theorem FieldMapping.read?_toJson (room : Nat) (mapping : FieldMapping) :
    FieldMapping.read? (room + 1) (.ofJson mapping.toJson) = some mapping := by
  have hfields : Fields.ofDocument? ["source", "target"] (.ofJson mapping.toJson) = _ :=
    Fields.ofDocument?_object (.refl _) (by simp)
  rw [read?, record?, hfields]
  simp [Fields.read?, string?, Document.ofJson]

theorem FieldMapping.restores_read? (room : Nat) :
    Restores (FieldMapping.read? room) toJson fun _ => True := by
  intro document mapping hread _
  cases room with
  | zero => cases hread
  | succ room => exact mapping.read?_toJson room

theorem ModelField.read?_toJson (room : Nat) (field : ModelField) :
    ModelField.read? (room + 1) (.ofJson field.toJson) = some field := by
  have hfields : Fields.ofDocument? names (.ofJson field.toJson) = _ :=
    Fields.ofDocument?_object (keys_append (keys_append (.refl _) (keys_textMember _ _))
      (keys_textMember _ _)) (by simp [names])
  rw [read?, record?, hfields, Option.bind_some,
    Fields.read?_string field.sourceField (by simp),
    Fields.read?_string field.targetField (by simp),
    Fields.read?_text field.sourcePath (by simp), Fields.read?_text field.targetPath (by simp)]
  rfl

theorem ModelField.restores_read? (room : Nat) :
    Restores (ModelField.read? room) toJson fun _ => True := by
  intro document field hread _
  cases room with
  | zero => cases hread
  | succ room => exact field.read?_toJson room

namespace Condition

mutual

-- The values that a condition and the conditions below it compare with.
def freeJson : Condition → List Json
  | .mk _ _ _ value children => value.toList ++ childrenFreeJson children

def childrenFreeJson : List Condition → List Json
  | [] => []
  | first :: rest => freeJson first ++ childrenFreeJson rest

end

theorem childrenFreeJson_eq_flatMap (children : List Condition) :
    childrenFreeJson children = children.flatMap freeJson := by
  induction children with
  | nil => rfl
  | cons first rest ih => rw [childrenFreeJson, ih, List.flatMap_cons]

theorem toJsons_eq_map (children : List Condition) : toJsons children = children.map toJson := by
  induction children with
  | nil => rfl
  | cons first rest ih => rw [toJsons, ih, List.map_cons]

end Condition

section Values

theorem value?_eq_map {document : Document} (hnull : document ≠ .null) (room : Nat) :
    value? room document = (document.toJson? room).map some := by
  cases document <;> first | rfl | exact absurd rfl hnull

theorem toJson?_ne_null {document : Document} (hnull : document ≠ .null) {room : Nat}
    {value : Json} (hread : document.toJson? room = some value) (hfloat : value.hasFloat = false) :
    Document.ofJson value ≠ .null := by
  cases document with
  | null => exact absurd rfl hnull
  | bool flag =>
      cases hread
      simp [Document.ofJson]
  | number numeral =>
      rcases Numeral.value?_eq_some hread with ⟨whole, -, rfl⟩ | hfloats
      · simp [Document.ofJson]
      · rw [hfloat] at hfloats
        cases hfloats
  | string text =>
      obtain ⟨text, -, rfl⟩ := Option.map_eq_some_iff.1 hread
      simp [Document.ofJson]
  | list items =>
      cases room with
      | zero => cases hread
      | succ room =>
          obtain ⟨values, -, rfl⟩ := Option.map_eq_some_iff.1 hread
          simp [Document.ofJson]
  | object members =>
      cases room with
      | zero => cases hread
      | succ room =>
          obtain ⟨found, -, rfl⟩ := Option.map_eq_some_iff.1 hread
          simp [Document.ofJson]

-- Null stands for no value, so a value that was read is not null.
theorem value?_ofJson {room : Nat} {document : Document} {value : Json}
    (hread : value? room document = some (some value)) (hfloat : value.hasFloat = false) :
    value? room (.ofJson value) = some (some value) := by
  have hnull : document ≠ .null := by
    rintro rfl
    cases hread
  rw [value?_eq_map hnull, Option.map_eq_some_iff] at hread
  obtain ⟨_, hvalue, ⟨⟩⟩ := hread
  have hrestored : Document.Restored room value := Document.restored_of_toJson? hvalue hfloat
  rw [value?_eq_map (toJson?_ne_null hnull hvalue hfloat), hrestored, Option.map_some]

end Values

namespace Condition

theorem ofDocument?_toJson {room : Nat} {children? : Document → Option (List Condition)}
    (condition : Condition)
    (hvalue : ∀ json, condition.value = some json → value? room (.ofJson json) = some (some json))
    (hchildren : condition.children ≠ [] →
      children? (.ofJson (.list (condition.children.map toJson))) = some condition.children) :
    ofDocument? room children? (.ofJson condition.toJson) = some condition := by
  obtain ⟨type, field, operator, value, children⟩ := condition
  have hfields : Fields.ofDocument? names
      (.ofJson (toJson (.mk type field operator value children))) = _ :=
    Fields.ofDocument?_object (keys_append (keys_append (keys_append (keys_append (.refl _)
      (keys_textMember _ _)) (keys_textMember _ _)) (keys_option _ _ id)) (keys_listMember _ _))
      (by simp [names])
  rw [ofDocument?, hfields, Option.bind_eq_bind, Option.bind_some,
    Fields.read?_string type (by simp), Fields.read?_text field (by simp),
    Fields.read?_text operator (by simp), Fields.read?_option value (by simp) hvalue,
    Fields.read?_omitted (children = []) (by simp [toJsons_eq_map, Condition.children]) id
      hchildren]
  rfl

-- What a condition holds was read with the readers at hand.
theorem parts_of_ofDocument? {room : Nat} {children? : Document → Option (List Condition)}
    {document : Document} {condition : Condition}
    (hread : ofDocument? room children? document = some condition) :
    (∀ json, condition.value = some json →
      ∃ document, value? room document = some (some json)) ∧
    (condition.children ≠ [] → ∃ document, children? document = some condition.children) := by
  simp only [ofDocument?, Option.bind_eq_bind, Option.bind_eq_some_iff] at hread
  obtain ⟨fields, -, type, -, field, -, operator, -, value, hvalue, children, hchildren, hsame⟩ :=
    hread
  cases hsame
  refine ⟨fun json hjson => ?_, fun hne => (Fields.read?_eq_some hchildren).resolve_left hne⟩
  cases hjson
  exact (Fields.read?_eq_some hvalue).resolve_left (by simp)

theorem restores_ofDocument? {room : Nat} {children? : Document → Option (List Condition)}
    (hchildren : Restores children? (fun children => .list (children.map toJson))
      (fun children => ∀ child ∈ children, ∀ value ∈ child.freeJson, value.hasFloat = false)) :
    Restores (ofDocument? room children?) toJson
      (fun condition => ∀ value ∈ condition.freeJson, value.hasFloat = false) := by
  intro document condition hread hplain
  obtain ⟨hvalue, hbelow⟩ := parts_of_ofDocument? hread
  obtain ⟨type, field, operator, value, children⟩ := condition
  refine ofDocument?_toJson _ (fun json hjson => ?_) fun hne => ?_
  · obtain ⟨document, hdocument⟩ := hvalue json hjson
    cases hjson
    exact value?_ofJson hdocument (hplain json (by simp [freeJson]))
  · obtain ⟨document, hdocument⟩ := hbelow hne
    refine hchildren document children hdocument fun child hmem value hvalue => ?_
    refine hplain value ?_
    rw [freeJson, childrenFreeJson_eq_flatMap]
    exact List.mem_append_right _ (List.mem_flatMap.2 ⟨child, hmem, hvalue⟩)

-- A condition without floating-point numbers reads back in as much room as it was read in.
theorem restores_read? : ∀ room : Nat, Restores (Condition.read? room) toJson
    (fun condition => ∀ value ∈ condition.freeJson, value.hasFloat = false)
  | 0 => fun _ _ hread => by cases hread
  | 1 => restores_ofDocument? fun _ _ hread => by cases hread
  | room + 2 => restores_ofDocument? ((restores_read? room).items)

end Condition

-- A whole number that was read as a priority has 64 bits.
theorem integer?_ofJson {document : Document} {value : Int}
    (hread : integer? document = some value) : integer? (.ofJson (.int value)) = some value := by
  cases document with
  | number numeral =>
      obtain ⟨hwhole, hbits⟩ := Option.filter_eq_some_iff.1 hread
      rw [Document.ofJson, integer?,
        Numeral.wholeValue?_ofInt (Numeral.inRange_of_wholeValue? hwhole)]
      exact Option.filter_eq_some_iff.2 ⟨rfl, hbits⟩
  | _ => cases hread

theorem bool?_ofJson (value : Bool) : bool? (.ofJson (.bool value)) = some value := by
  rw [Document.ofJson, bool?]

namespace Rule

def freeJson (rule : Rule) : List Json := rule.conditions.flatMap Condition.freeJson

theorem restores_read? (room : Nat) : Restores (Rule.read? (room + 2)) toJson
    (fun rule => ∀ value ∈ rule.freeJson, value.hasFloat = false) := by
  intro document rule hread hplain
  simp only [read?, record?, Option.bind_eq_some_iff, Option.bind_eq_bind] at hread
  obtain ⟨fields, -, id, -, name, -, description, -, conditions, hconditions, mappings, hmappings,
    priority, hpriority, enabled, -, hsame⟩ := hread
  cases hsame
  have hconditions := (Condition.restores_read? room).list hconditions
    fun condition hmem value hvalue =>
      hplain value (List.mem_flatMap.2 ⟨condition, hmem, hvalue⟩)
  have hmappings := (FieldMapping.restores_read? room).list hmappings fun _ _ => trivial
  have hpriority : integer? (.ofJson (.int priority)) = some priority := by
    rcases Fields.read?_eq_some hpriority with rfl | ⟨document, hdocument⟩
    · decide
    · exact integer?_ofJson hdocument
  have hfields : Fields.ofDocument? names (.ofJson (toJson
      { id, name, description, conditions, mappings, priority, enabled })) = _ :=
    Fields.ofDocument?_object (keys_append (keys_append (keys_append (.refl _)
      (keys_textMember _ _)) (keys_textMember _ _)) (.refl _)) (by simp [names])
  rw [read?, record?, hfields, Option.bind_some, Option.bind_eq_bind,
    Fields.read?_string id (by simp), Fields.read?_text name (by simp),
    Fields.read?_text description (by simp), Fields.read?_given (by simp) hconditions,
    Fields.read?_given (by simp) hmappings, Fields.read?_given (by simp) hpriority,
    Fields.read?_given (by simp) (bool?_ofJson enabled)]
  rfl

end Rule

namespace ModelMapping

def freeJson (mapping : ModelMapping) : List Json := mapping.rules.flatMap Rule.freeJson

theorem restores_read? (room : Nat) : Restores (ModelMapping.read? (room + 4)) toJson
    (fun mapping => ∀ value ∈ mapping.freeJson, value.hasFloat = false) := by
  intro document mapping hread hplain
  simp only [read?, record?, Option.bind_eq_some_iff, Option.bind_eq_bind] at hread
  obtain ⟨fields, -, sourceModel, -, targetModel, -, modelFields, hmodelFields, rules, hrules,
    hsame⟩ := hread
  cases hsame
  have hmodelFields := (ModelField.restores_read? (room + 2)).list hmodelFields fun _ _ => trivial
  have hrules := (Rule.restores_read? room).list hrules fun rule hmem value hvalue =>
    hplain value (List.mem_flatMap.2 ⟨rule, hmem, hvalue⟩)
  have hkeys : Fields.ofDocument? names
      (.ofJson (toJson ⟨sourceModel, targetModel, modelFields, rules⟩)) = _ :=
    Fields.ofDocument?_object (keys_append (.refl _) (keys_listMember _ _)) (by simp [names])
  rw [read?, record?, hkeys, Option.bind_some, Option.bind_eq_bind,
    Fields.read?_string sourceModel (by simp), Fields.read?_string targetModel (by simp),
    Fields.read?_given (by simp) hmodelFields, Fields.read?_list rules (by simp) hrules]
  rfl

end ModelMapping

theorem metadata?_ofJson {room : Nat} {document : Document} {members : List (String × Json)}
    (hread : metadata? room document = some (some members))
    (hfloat : ∀ entry ∈ members, entry.2.hasFloat = false) :
    metadata? room (.ofJson (.object members)) = some (some members) := by
  simp only [metadata?, Option.bind_eq_bind, Option.bind_eq_some_iff] at hread ⊢
  obtain ⟨value, hvalue, hmembers⟩ := hread
  split at hmembers
  · cases hmembers
  · next found =>
      cases hmembers
      exact ⟨_, value?_ofJson hvalue (anyMemberFloat_eq_false_iff.2 hfloat), rfl⟩
  · cases hmembers

section Floats

@[simp] theorem anyMemberFloat_append (front behind : List (String × Json)) :
    anyMemberFloat (front ++ behind) = (anyMemberFloat front || anyMemberFloat behind) := by
  induction front with
  | nil => rfl
  | cons entry rest ih => simp [anyMemberFloat, ih, Bool.or_assoc]

@[simp] theorem anyMemberFloat_textMember (key text : String) :
    anyMemberFloat (textMember key text) = false := by
  unfold textMember
  split_ifs <;> rfl

@[simp] theorem anyMemberFloat_listMember (key : String) (items : List Json) :
    anyMemberFloat (listMember key items) = anyFloat items := by
  unfold listMember
  cases items <;> simp [anyMemberFloat, hasFloat, anyFloat]

@[simp] theorem anyMemberFloat_option {α : Type} (key : String) (value : Option α)
    (write : α → Json) : anyMemberFloat (value.toList.map fun value => (key, write value)) =
      value.any fun value => (write value).hasFloat := by
  cases value <;> simp [anyMemberFloat]

theorem anyFloat_map_eq_false {α : Type} {values : List α} {write : α → Json}
    (hvalues : ∀ value ∈ values, (write value).hasFloat = false) :
    anyFloat (values.map write) = false := by
  induction values with
  | nil => rfl
  | cons value rest ih =>
      rw [List.map_cons, anyFloat, hvalues value (.head _),
        ih fun other hmem => hvalues other (.tail _ hmem)]
      rfl

theorem FieldMapping.hasFloat_toJson (mapping : FieldMapping) :
    mapping.toJson.hasFloat = false := rfl

theorem ModelField.hasFloat_toJson (field : ModelField) : field.toJson.hasFloat = false := by
  simp [toJson, hasFloat, anyMemberFloat]

mutual

theorem Condition.hasFloat_toJson : ∀ condition : Condition,
    (∀ value ∈ condition.freeJson, value.hasFloat = false) → condition.toJson.hasFloat = false
  | .mk type field operator value children, hplain => by
      have hchildren := Condition.anyFloat_toJsons children fun value hvalue =>
        hplain value (List.mem_append_right _ hvalue)
      have hvalue : ∀ json, value = some json → json.hasFloat = false := by
        rintro json rfl
        exact hplain json (List.mem_append_left _ (by simp))
      cases value <;> simp_all [Condition.toJson, hasFloat, anyMemberFloat]

theorem Condition.anyFloat_toJsons : ∀ children : List Condition,
    (∀ value ∈ Condition.childrenFreeJson children, value.hasFloat = false) →
    anyFloat (Condition.toJsons children) = false
  | [], _ => rfl
  | first :: rest, hplain => by
      rw [Condition.toJsons, anyFloat, Bool.or_eq_false_iff]
      exact ⟨Condition.hasFloat_toJson first fun value hvalue =>
          hplain value (List.mem_append_left _ hvalue),
        Condition.anyFloat_toJsons rest fun value hvalue =>
          hplain value (List.mem_append_right _ hvalue)⟩

end

theorem Rule.hasFloat_toJson (rule : Rule)
    (hplain : ∀ value ∈ rule.freeJson, value.hasFloat = false) : rule.toJson.hasFloat = false := by
  have hconditions := anyFloat_map_eq_false fun condition (hmem : condition ∈ rule.conditions) =>
    condition.hasFloat_toJson fun value hvalue =>
      hplain value (List.mem_flatMap.2 ⟨condition, hmem, hvalue⟩)
  have hmappings := anyFloat_map_eq_false fun mapping (_ : mapping ∈ rule.mappings) =>
    mapping.hasFloat_toJson
  simp [toJson, hasFloat, anyMemberFloat, hconditions, hmappings]

theorem ModelMapping.hasFloat_toJson (mapping : ModelMapping)
    (hplain : ∀ value ∈ mapping.freeJson, value.hasFloat = false) :
    mapping.toJson.hasFloat = false := by
  have hfields := anyFloat_map_eq_false fun field (_ : field ∈ mapping.fields) =>
    field.hasFloat_toJson
  have hrules := anyFloat_map_eq_false fun rule (hmem : rule ∈ mapping.rules) =>
    rule.hasFloat_toJson fun value hvalue =>
      hplain value (List.mem_flatMap.2 ⟨rule, hmem, hvalue⟩)
  simp [toJson, hasFloat, anyMemberFloat, hfields, hrules]

end Floats

namespace Config

-- The JSON values in a configuration whose form is left to its author: what conditions compare
-- with, and the metadata.
def freeJson (config : Config) : List Json :=
  config.rules.flatMap Rule.freeJson ++ config.datamodels.flatMap ModelMapping.freeJson ++
    (config.metadata.getD []).map Prod.snd

theorem restores_read? (room : Nat) : Restores (Config.read? (room + 6)) toJson
    (fun config => ∀ value ∈ config.freeJson, value.hasFloat = false) := by
  intro document config hread hplain
  simp only [read?, record?, Option.bind_eq_some_iff, Option.bind_eq_bind] at hread
  obtain ⟨fields, -, version, -, name, -, description, -, mappings, hmappings, rules, hrules,
    datamodels, hdatamodels, metadata, hmetadata, hsame⟩ := hread
  cases hsame
  have hmappings := (FieldMapping.restores_read? (room + 4)).list hmappings fun _ _ => trivial
  have hrules := (Rule.restores_read? (room + 2)).list hrules fun rule hmem value hvalue =>
    hplain value (List.mem_append_left _ (List.mem_append_left _
      (List.mem_flatMap.2 ⟨rule, hmem, hvalue⟩)))
  have hdatamodels := (ModelMapping.restores_read? room).list hdatamodels
    fun mapping hmem value hvalue => hplain value (List.mem_append_left _ (List.mem_append_right _
      (List.mem_flatMap.2 ⟨mapping, hmem, hvalue⟩)))
  have hmetadata : ∀ members, metadata = some members →
      metadata? (room + 5) (.ofJson (.object members)) = some (some members) := by
    rintro members rfl
    obtain ⟨document, hdocument⟩ := (Fields.read?_eq_some hmetadata).resolve_left (by simp)
    exact metadata?_ofJson hdocument fun entry hmem =>
      hplain entry.2 (List.mem_append_right _ (List.mem_map_of_mem hmem))
  have hfields : Fields.ofDocument? names (.ofJson (toJson
      { version, name, description, mappings, rules, datamodels, metadata })) = _ :=
    Fields.ofDocument?_object (keys_append (keys_append (keys_append (keys_append (keys_append
      (keys_append (.refl _) (keys_textMember _ _)) (keys_textMember _ _)) (.refl _))
      (keys_listMember _ _)) (keys_listMember _ _)) (keys_option _ _ .object)) (by simp [names])
  rw [read?, record?, hfields, Option.bind_some, Option.bind_eq_bind,
    Fields.read?_string version (by simp), Fields.read?_text name (by simp),
    Fields.read?_text description (by simp), Fields.read?_given (by simp) hmappings,
    Fields.read?_list rules (by simp) hrules, Fields.read?_list datamodels (by simp) hdatamodels,
    Fields.read?_option metadata (by simp) hmetadata]
  rfl

theorem hasFloat_toJson (config : Config)
    (hplain : ∀ value ∈ config.freeJson, value.hasFloat = false) :
    config.toJson.hasFloat = false := by
  have hmappings := anyFloat_map_eq_false fun mapping (_ : mapping ∈ config.mappings) =>
    mapping.hasFloat_toJson
  have hrules := anyFloat_map_eq_false fun rule (hmem : rule ∈ config.rules) =>
    rule.hasFloat_toJson fun value hvalue => hplain value (List.mem_append_left _
      (List.mem_append_left _ (List.mem_flatMap.2 ⟨rule, hmem, hvalue⟩)))
  have hdatamodels := anyFloat_map_eq_false fun mapping (hmem : mapping ∈ config.datamodels) =>
    mapping.hasFloat_toJson fun value hvalue => hplain value (List.mem_append_left _
      (List.mem_append_right _ (List.mem_flatMap.2 ⟨mapping, hmem, hvalue⟩)))
  have hmetadata : config.metadata.any anyMemberFloat = false := by
    cases hmembers : config.metadata with
    | none => rfl
    | some members =>
        refine anyMemberFloat_eq_false_iff.2 fun entry hmem =>
          hplain entry.2 (List.mem_append_right _ (List.mem_map_of_mem ?_))
        rwa [hmembers]
  simp [toJson, hasFloat, anyMemberFloat, hmappings, hrules, hdatamodels, hmetadata]

-- A configuration that was loaded, without floating-point numbers in its values and metadata, is
-- written as a text that loads as the same configuration.
theorem load_encode [Pattern.Engine] {text : String} {config : Config}
    (hload : Config.load text = .ok config)
    (hplain : ∀ value ∈ config.freeJson, value.hasFloat = false) :
    Config.load config.encode = .ok config := by
  have hdecode : decode? text = some config ∧ config.isValid = true := by
    unfold load at hload
    split at hload
    · cases hload
    · next found hfound =>
        split_ifs at hload with hvalid
        cases hload
        exact ⟨hfound, hvalid⟩
  obtain ⟨hdecode, hvalid⟩ := hdecode
  obtain ⟨document, -, hread⟩ := Option.bind_eq_some_iff.1 hdecode
  have hagain : decode? config.encode = some config := by
    rw [decode?, encode, Document.parse?_pretty (config.hasFloat_toJson hplain), Option.bind_some]
    exact restores_read? 121 document config hread hplain
  simp only [load, hagain, if_pos hvalid]

end Config

-- Mappings that are written as a list are the mappings that the text lists.
theorem decodeMappings?_pretty (mappings : List FieldMapping) :
    decodeMappings? (Json.list (mappings.map FieldMapping.toJson)).pretty = some mappings := by
  have hplain : (Json.list (mappings.map FieldMapping.toJson)).hasFloat = false :=
    anyFloat_map_eq_false fun mapping _ => mapping.hasFloat_toJson
  rw [decodeMappings?, Document.parse?_pretty hplain, Option.bind_some]
  exact mapM_ofJson fun mapping _ => mapping.read?_toJson 125

namespace Config

section Prefixes

attribute [local instance] Pattern.Engine.prefixes

-- Records given as lists, escapes, members out of order, null inside a value, and metadata.
def nestedText : String :=
  "\x7b\"version\":\"\\u0031\",\"rules\":[[\"r\",\"\",\"\",[[\"source\",\"\",\"\",
  [\"\\n\",\x7b\"b\":-2,\"a\":null\x7d]]],[[\"a\",\"b\"]]]],\"metadata\":\x7b\"z\":[7]\x7d\x7d"

-- The values that stand free in it.
def nestedValues : List Json :=
  [.list [.string "\n", .object [("a", .null), ("b", .int (-2))]], .list [.int 7]]

theorem load_encode_nested :
    ((Config.load nestedText).toOption.map fun config =>
      (config.version, config.mappings, config.datamodels.length,
        config.metadata.map (·.map Prod.fst))) = some ("1", [], 0, some ["z"]) ∧
    ((Config.load nestedText).toOption.map fun config => config.rules.map fun rule =>
      (rule.id, rule.mappings, rule.enabled, rule.conditions.map (·.type))) =
      some [("r", [⟨"a", "b"⟩], false, ["source"])] ∧
    ∃ config, Config.load nestedText = .ok config ∧ (config.freeJson == nestedValues) = true ∧
      Config.load config.encode = .ok config := by
  have hany : (Config.load nestedText).toOption.any (fun config =>
      (config.version, config.mappings, config.datamodels.length,
        config.metadata.map (·.map Prod.fst)) == ("1", [], 0, some ["z"]) &&
      (config.rules.map fun rule =>
        (rule.id, rule.mappings, rule.enabled, rule.conditions.map (·.type))) ==
        [("r", [⟨"a", "b"⟩], false, ["source"])] &&
      config.freeJson == nestedValues && config.freeJson.all fun value => !value.hasFloat) =
      true := by
    decide +kernel
  cases hload : Config.load nestedText with
  | error _ => simp [hload, Except.toOption] at hany
  | ok config =>
      simp only [hload, Except.toOption, Option.any_some, Bool.and_eq_true, beq_iff_eq] at hany
      obtain ⟨⟨⟨hrecord, hrules⟩, hfree⟩, hplain⟩ := hany
      exact ⟨congrArg some hrecord, congrArg some hrules, config, rfl, hfree,
        load_encode hload (by simpa using hplain)⟩

end Prefixes

end Config

end SearchPipeline.Mapping
