/-
# Coercion of tool arguments

`coerceWithJsonSchema` converts the arguments of a tool call to what the schema of the tool asks for. A type
converts a scalar only if the value does not match it, so a value that satisfies the schema is left alone
there. A union does not ask first: it takes the first member that the value can be made to match, even if the
value satisfies a later one as it is. Where no union on the way has such a member, a value that satisfies
the schema is returned as it is (`coerce_unchanged`).
-/
import Mathlib.Data.Rat.Defs
import Trek.Lib.Text

namespace Trek.Ai.Coercion

/-! ### Values and schemas -/

/-- A value: a JSON value, or a function that every object inherits. -/
inductive Value
  | null
  | bool (b : Bool)
  | num (n : ℚ)
  | str (s : String)
  | arr (xs : List Value)
  | obj (fields : List (String × Value))
  | inherited (name : String)

/-- `"number" | "integer" | "boolean" | "string" | "null" | "array" | "object"`. -/
inductive JsonType
  | number | integer | boolean | string | null | array | object
  deriving DecidableEq

/-- `JsonSchemaObject`. A keyword that is absent is an empty list or `none`. -/
inductive JsonSchema
  | mk (type : List JsonType) (properties : List (String × JsonSchema)) (additionalProperties : Option (Bool ⊕ JsonSchema))
    (items : Option (JsonSchema ⊕ List JsonSchema)) (allOf anyOf oneOf : List JsonSchema)

namespace Value

mutual

/-- The value is a JSON value. -/
def isJson : Value → Bool
  | .arr xs => isJsonList xs
  | .obj fields => isJsonFields fields
  | .inherited _ => false
  | _ => true

/-- All the values are. -/
def isJsonList : List Value → Bool
  | [] => true
  | x :: xs => isJson x && isJsonList xs

/-- All the fields are. -/
def isJsonFields : List (String × Value) → Bool
  | [] => true
  | (_, x) :: fields => isJson x && isJsonFields fields

end

theorem isJson_of_mem {x : Value} : ∀ {xs : List Value}, isJsonList xs = true → x ∈ xs → isJson x = true
  | y :: xs, h, hmem => by
    rw [isJsonList, Bool.and_eq_true] at h
    rcases List.mem_cons.mp hmem with rfl | hmem
    · exact h.1
    · exact isJson_of_mem h.2 hmem

theorem isJson_of_mem_fields {field : String × Value} : ∀ {fields : List (String × Value)}, isJsonFields fields = true →
    field ∈ fields → isJson field.2 = true
  | (_, _) :: fields, h, hmem => by
    rw [isJsonFields, Bool.and_eq_true] at h
    rcases List.mem_cons.mp hmem with rfl | hmem
    · exact h.1
    · exact isJson_of_mem_fields h.2 hmem

end Value

/-- The functions that `key in value` finds in every object. `__proto__` is there as well, but what is assigned to it
adds no property. -/
def INHERITED_NAMES : List String :=
  ["constructor", "__defineGetter__", "__defineSetter__", "hasOwnProperty", "__lookupGetter__", "__lookupSetter__",
    "isPrototypeOf", "propertyIsEnumerable", "toString", "valueOf", "toLocaleString"]

/-- `matchesJsonType`. -/
def matchesJsonType : Value → JsonType → Bool
  | .num _, .number => true
  | .num n, .integer => n.den = 1
  | .bool _, .boolean => true
  | .str _, .string => true
  | .null, .null => true
  | .arr _, .array => true
  | .obj _, .object => true
  | _, _ => false

/-! ### The coercion -/

/-- Conversions of JavaScript: `Number(text)`, if it is finite, and `String(n)`. -/
structure Conversions where
  number : String → Option ℚ
  string : ℚ → String

variable (conv : Conversions)

/-- `coercePrimitiveByType`; `none` where it returns the value itself. -/
def coercePrimitiveByType : Value → JsonType → Option Value
  | .null, .number => some (.num 0)
  | .str s, .number => if jsTrim s = "" then none else (conv.number s).map .num
  | .bool b, .number => some (.num (if b then 1 else 0))
  | .null, .integer => some (.num 0)
  | .str s, .integer => if jsTrim s = "" then none else ((conv.number s).filter (·.den = 1)).map .num
  | .bool b, .integer => some (.num (if b then 1 else 0))
  | .null, .boolean => some (.bool false)
  | .str s, .boolean => if s = "true" then some (.bool true) else if s = "false" then some (.bool false) else none
  | .num n, .boolean => if n = 1 then some (.bool true) else if n = 0 then some (.bool false) else none
  | .null, .string => some (.str "")
  | .num n, .string => some (.str (conv.string n))
  | .bool b, .string => some (.str (if b then "true" else "false"))
  | .str s, .null => if s = "" then some .null else none
  | .num n, .null => if n = 0 then some .null else none
  | .bool b, .null => if b then none else some .null
  | _, _ => none

/-- The conversion to the types of a schema: none if there are several and the value matches one, else the first that
changes the value. -/
def coerceTypes (types : List JsonType) (value : Value) : Value :=
  if 1 < types.length ∧ types.any (matchesJsonType value) then value
  else (types.findSome? (coercePrimitiveByType conv value)).getD value

/-- `value[key] = field`. -/
def setField (key : String) (field : Value) : List (String × Value) → List (String × Value)
  | [] => [(key, field)]
  | (name, old) :: fields => if name = key then (name, field) :: fields else (name, old) :: setField key field fields

variable (check : JsonSchema → Value → Bool)

mutual

/-- `coerceWithJsonSchema`; `none` where it throws. `check` is the validator of a schema. -/
def coerceWithJsonSchema : JsonSchema → Value → Option Value
  | .mk types properties additionalProperties items allOf anyOf oneOf, value =>
    (coerceAll allOf value).bind fun value =>
    (coerceWithUnionSchema anyOf value).bind fun value =>
    (coerceWithUnionSchema oneOf value).bind fun value =>
    let value := coerceTypes conv types value
    match value with
    | .obj fields =>
      if .object ∈ types then
        -- `applySchemaObjectCoercion`
        (coerceProperties properties fields).bind fun fields =>
        match additionalProperties with
        | some (.inr schema) =>
          (fields.mapM fun field =>
            if field.1 ∈ properties.map Prod.fst then some field
            else (coerceWithJsonSchema schema field.2).map (field.1, ·)).map .obj
        | _ => some (.obj fields)
      else some (.obj fields)
    | .arr xs =>
      if .array ∈ types then
        -- `applySchemaArrayCoercion`
        match items with
        | some (.inr schemas) => (coerceTuple schemas xs).map .arr
        | some (.inl schema) => (xs.mapM (coerceWithJsonSchema schema)).map .arr
        | none => some (.arr xs)
      else some (.arr xs)
    | value => some value

/-- The members of `allOf`, one after the other. -/
def coerceAll : List JsonSchema → Value → Option Value
  | [], value => some value
  | schema :: schemas, value => (coerceWithJsonSchema schema value).bind (coerceAll schemas)

/-- `coerceWithUnionSchema`. A value with a function in it has no `structuredClone`. -/
def coerceWithUnionSchema : List JsonSchema → Value → Option Value
  | [], value => some value
  | schema :: schemas, value =>
    if value.isJson then
      (coerceWithJsonSchema schema value).bind fun coerced =>
        if check schema coerced then some coerced else coerceWithUnionSchema schemas value
    else none

/-- The loop over the `properties` of an object. -/
def coerceProperties : List (String × JsonSchema) → List (String × Value) → Option (List (String × Value))
  | [], fields => some fields
  | (key, schema) :: properties, fields =>
    match fields.lookup key with
    | some field => (coerceWithJsonSchema schema field).bind fun coerced => coerceProperties properties (setField key coerced fields)
    | none =>
      if key ∈ INHERITED_NAMES then
        (coerceWithJsonSchema schema (.inherited key)).bind fun coerced =>
          coerceProperties properties (setField key coerced fields)
      else coerceProperties properties fields

/-- The items of a tuple. -/
def coerceTuple : List JsonSchema → List Value → Option (List Value)
  | schema :: schemas, x :: xs =>
    (coerceWithJsonSchema schema x).bind fun coerced => (coerceTuple schemas xs).map (coerced :: ·)
  | _, xs => some xs

end

/-! ### Satisfaction -/

mutual

/-- The value satisfies the schema. -/
def satisfies : JsonSchema → Value → Bool
  | .mk types properties additionalProperties items allOf anyOf oneOf, value =>
    (types.isEmpty || types.any (matchesJsonType value)) &&
      (match value with
        | .obj fields =>
          satisfiesProperties properties fields &&
            match additionalProperties with
            | some (.inr schema) => fields.all fun field => field.1 ∈ properties.map Prod.fst || satisfies schema field.2
            | some (.inl allowed) => allowed || fields.all fun field => field.1 ∈ properties.map Prod.fst
            | none => true
        | .arr xs =>
          match items with
          | some (.inr schemas) => satisfiesTuple schemas xs
          | some (.inl schema) => xs.all (satisfies schema)
          | none => true
        | _ => true) &&
      satisfied allOf value = allOf.length &&
      (anyOf.isEmpty || 0 < satisfied anyOf value) &&
      (oneOf.isEmpty || satisfied oneOf value = 1)

/-- How many of the schemas the value satisfies. -/
def satisfied : List JsonSchema → Value → ℕ
  | [], _ => 0
  | schema :: schemas, value => (if satisfies schema value then 1 else 0) + satisfied schemas value

/-- Every property that the object has satisfies its schema. -/
def satisfiesProperties : List (String × JsonSchema) → List (String × Value) → Bool
  | [], _ => true
  | (key, schema) :: properties, fields =>
    (match fields.lookup key with
      | some field => satisfies schema field
      | none => true) && satisfiesProperties properties fields

/-- The items of a tuple satisfy their schemas. -/
def satisfiesTuple : List JsonSchema → List Value → Bool
  | schema :: schemas, x :: xs => satisfies schema x && satisfiesTuple schemas xs
  | _, _ => true

end

/-- The value cannot be made to match the member of a union. -/
def Rejects (schema : JsonSchema) (value : Value) : Prop :=
  ∃ coerced, coerceWithJsonSchema conv check schema value = some coerced ∧ check schema coerced = false

mutual

/-- No union that the value meets has a member before the first one the value satisfies that does not reject it, and no
property that it lacks has the name of a function that every object inherits. -/
def Undisturbed : JsonSchema → Value → Prop
  | .mk types properties additionalProperties items allOf anyOf oneOf, value =>
    UndisturbedAll allOf value ∧ UndisturbedUnion anyOf value ∧ UndisturbedUnion oneOf value ∧
      match value with
      | .obj fields =>
        .object ∈ types → UndisturbedProperties properties fields ∧
          match additionalProperties with
          | some (.inr schema) => ∀ field ∈ fields, field.1 ∉ properties.map Prod.fst → Undisturbed schema field.2
          | _ => True
      | .arr xs =>
        .array ∈ types →
          match items with
          | some (.inr schemas) => UndisturbedTuple schemas xs
          | some (.inl schema) => ∀ x ∈ xs, Undisturbed schema x
          | none => True
      | _ => True

/-- The same for every schema of a list. -/
def UndisturbedAll : List JsonSchema → Value → Prop
  | [], _ => True
  | schema :: schemas, value => Undisturbed schema value ∧ UndisturbedAll schemas value

/-- The members of a union up to the first one that the value satisfies. -/
def UndisturbedUnion : List JsonSchema → Value → Prop
  | [], _ => True
  | schema :: schemas, value =>
    if satisfies schema value then Undisturbed schema value
    else Rejects conv check schema value ∧ UndisturbedUnion schemas value

/-- The properties of an object. -/
def UndisturbedProperties : List (String × JsonSchema) → List (String × Value) → Prop
  | [], _ => True
  | (key, schema) :: properties, fields =>
    (match fields.lookup key with
      | some field => Undisturbed schema field
      | none => key ∉ INHERITED_NAMES) ∧ UndisturbedProperties properties fields

/-- The items of a tuple. -/
def UndisturbedTuple : List JsonSchema → List Value → Prop
  | schema :: schemas, x :: xs => Undisturbed schema x ∧ UndisturbedTuple schemas xs
  | _, _ => True

end

/-! ### Types and fields -/

variable {conv : Conversions} {check : JsonSchema → Value → Bool}

/-- A type that a value matches does not convert it. -/
theorem coercePrimitiveByType_of_matches {value : Value} {type : JsonType} (h : matchesJsonType value type = true) :
    coercePrimitiveByType conv value type = none := by
  cases value <;> cases type <;> first | contradiction | rfl

/-- Types one of which a value matches leave it alone. -/
theorem coerceTypes_of_matches {types : List JsonType} {value : Value}
    (h : types = [] ∨ types.any (matchesJsonType value) = true) : coerceTypes conv types value = value := by
  unfold coerceTypes
  split
  · rfl
  · next hone =>
    rcases h with rfl | hmatch
    · rfl
    · obtain ⟨type, rfl⟩ : ∃ type, types = [type] := by
        match types, hmatch with
        | [type], _ => exact ⟨type, rfl⟩
        | type :: type' :: types, hmatch => exact absurd ⟨by simp, hmatch⟩ hone
      rw [List.any_cons, List.any_nil, Bool.or_false] at hmatch
      rw [List.findSome?_cons, coercePrimitiveByType_of_matches hmatch]
      rfl

theorem setField_of_lookup {key : String} {field : Value} : ∀ {fields : List (String × Value)}, fields.lookup key = some field →
    setField key field fields = fields
  | (name, old) :: fields, h => by
    rw [List.lookup_cons] at h
    unfold setField
    split at h
    · next hkey =>
      obtain rfl := Option.some.inj h
      rw [if_pos (beq_iff_eq.mp hkey).symm]
    · next hkey => rw [if_neg fun heq => by simp [heq] at hkey, setField_of_lookup h]

theorem mapM_eq_self {α : Type*} {f : α → Option α} : ∀ {xs : List α}, (∀ x ∈ xs, f x = some x) → xs.mapM f = some xs
  | [], _ => rfl
  | x :: xs, h => by
    rw [List.mapM_cons, h x List.mem_cons_self, mapM_eq_self fun y hy => h y (List.mem_cons_of_mem x hy)]
    rfl

theorem mem_of_lookup_field {key : String} {field : Value} {fields : List (String × Value)} (h : fields.lookup key = some field) :
    (key, field) ∈ fields := by
  obtain ⟨front, back, rfl, -⟩ := List.lookup_eq_some_iff.mp h
  simp

/-! ### Values that satisfy a schema -/

theorem satisfied_le (value : Value) : ∀ schemas : List JsonSchema, satisfied schemas value ≤ schemas.length
  | [] => le_rfl
  | schema :: schemas => by
    have := satisfied_le value schemas
    rw [satisfied, List.length_cons]
    split <;> omega

/-- A value that satisfies all the schemas of a list satisfies its first one and all the others. -/
theorem satisfied_cons_all {schema : JsonSchema} {schemas : List JsonSchema} {value : Value}
    (h : satisfied (schema :: schemas) value = (schema :: schemas).length) :
    satisfies schema value = true ∧ satisfied schemas value = schemas.length := by
  have hle := satisfied_le value schemas
  rw [satisfied, List.length_cons] at h
  split at h
  · next hsat => exact ⟨hsat, by omega⟩
  · omega

mutual

/-- A value that satisfies a schema is not changed, where no union disturbs it. -/
theorem coerce_eq (hcheck : ∀ schema value, value.isJson = true → check schema value = satisfies schema value) :
    ∀ (schema : JsonSchema) (value : Value), value.isJson = true → satisfies schema value = true →
      Undisturbed conv check schema value → coerceWithJsonSchema conv check schema value = some value
  | .mk types properties additionalProperties items allOf anyOf oneOf, value, hjson, hsat, hund => by
    unfold satisfies at hsat
    simp only [Bool.and_eq_true, Bool.or_eq_true, decide_eq_true_eq, List.isEmpty_iff] at hsat
    obtain ⟨⟨⟨⟨htypes, hparts⟩, hall⟩, hany⟩, hone⟩ := hsat
    unfold Undisturbed at hund
    obtain ⟨hundAll, hundAny, hundOne, hundParts⟩ := hund
    unfold coerceWithJsonSchema
    rw [coerceAll_eq hcheck allOf value hjson hall hundAll, Option.bind_some,
      coerceUnion_eq hcheck anyOf value hjson hany hundAny, Option.bind_some,
      coerceUnion_eq hcheck oneOf value hjson (hone.imp_right fun h => by omega) hundOne, Option.bind_some]
    dsimp only
    rw [coerceTypes_of_matches htypes]
    cases value with
    | obj fields =>
      have hfields : Value.isJsonFields fields = true := hjson
      dsimp only at hparts hundParts ⊢
      split
      · next hobject =>
        obtain ⟨hundProperties, hundAdditional⟩ := hundParts hobject
        rw [Bool.and_eq_true] at hparts
        rw [coerceProperties_eq hcheck properties fields hfields hparts.1 hundProperties, Option.bind_some]
        match additionalProperties with
        | none => rfl
        | some (.inl _) => rfl
        | some (.inr schema) =>
          have hsame : ∀ field ∈ fields, (if field.1 ∈ properties.map Prod.fst then some field
              else (coerceWithJsonSchema conv check schema field.2).map (field.1, ·)) = some field := by
            intro field hfield
            split
            · rfl
            · next hother =>
              have hextra := List.all_eq_true.mp hparts.2 field hfield
              rw [Bool.or_eq_true, decide_eq_true_eq] at hextra
              rw [coerce_eq hcheck schema field.2 (Value.isJson_of_mem_fields hfields hfield) (hextra.resolve_left hother)
                (hundAdditional field hfield hother)]
              rfl
          dsimp only
          rw [mapM_eq_self hsame]
          rfl
      · rfl
    | arr xs =>
      have hxs : Value.isJsonList xs = true := hjson
      dsimp only at hparts hundParts ⊢
      split
      · next harray =>
        have hundItems := hundParts harray
        match items with
        | none => rfl
        | some (.inr schemas) =>
          dsimp only at hparts hundItems ⊢
          rw [coerceTuple_eq hcheck schemas xs hxs hparts hundItems]
          rfl
        | some (.inl schema) =>
          dsimp only at hparts hundItems ⊢
          rw [mapM_eq_self fun x hx => coerce_eq hcheck schema x (Value.isJson_of_mem hxs hx) (List.all_eq_true.mp hparts x hx)
            (hundItems x hx)]
          rfl
      · rfl
    | null => rfl
    | bool b => rfl
    | num n => rfl
    | str s => rfl
    | inherited name => rfl

theorem coerceAll_eq (hcheck : ∀ schema value, value.isJson = true → check schema value = satisfies schema value) :
    ∀ (schemas : List JsonSchema) (value : Value), value.isJson = true → satisfied schemas value = schemas.length →
      UndisturbedAll conv check schemas value → coerceAll conv check schemas value = some value
  | [], _, _, _, _ => by rw [coerceAll]
  | schema :: schemas, value, hjson, hall, hund => by
    obtain ⟨hfirst, hrest⟩ := satisfied_cons_all hall
    rw [UndisturbedAll] at hund
    rw [coerceAll, coerce_eq hcheck schema value hjson hfirst hund.1, Option.bind_some,
      coerceAll_eq hcheck schemas value hjson hrest hund.2]

theorem coerceUnion_eq (hcheck : ∀ schema value, value.isJson = true → check schema value = satisfies schema value) :
    ∀ (schemas : List JsonSchema) (value : Value), value.isJson = true → (schemas = [] ∨ 0 < satisfied schemas value) →
      UndisturbedUnion conv check schemas value → coerceWithUnionSchema conv check schemas value = some value
  | [], _, _, _, _ => by rw [coerceWithUnionSchema]
  | schema :: schemas, value, hjson, hany, hund => by
    rw [UndisturbedUnion] at hund
    rw [coerceWithUnionSchema, if_pos hjson]
    split at hund
    · next hsat =>
      -- the first member that the value satisfies gives it back
      rw [coerce_eq hcheck schema value hjson hsat hund, Option.bind_some, hcheck schema value hjson, if_pos hsat]
    · next hsat =>
      obtain ⟨⟨coerced, hcoerced, hfalse⟩, hrest⟩ := hund
      rw [hcoerced, Option.bind_some, hfalse, if_neg Bool.false_ne_true]
      refine coerceUnion_eq hcheck schemas value hjson (Or.inr ?_) hrest
      have hsome := hany.resolve_left (List.cons_ne_nil _ _)
      rw [satisfied, if_neg hsat] at hsome
      omega

theorem coerceProperties_eq (hcheck : ∀ schema value, value.isJson = true → check schema value = satisfies schema value) :
    ∀ (properties : List (String × JsonSchema)) (fields : List (String × Value)), Value.isJsonFields fields = true →
      satisfiesProperties properties fields = true → UndisturbedProperties conv check properties fields →
        coerceProperties conv check properties fields = some fields
  | [], _, _, _, _ => by rw [coerceProperties]
  | (key, schema) :: properties, fields, hjson, hsat, hund => by
    rw [satisfiesProperties, Bool.and_eq_true] at hsat
    rw [UndisturbedProperties] at hund
    have hrest := coerceProperties_eq hcheck properties fields hjson hsat.2 hund.2
    rw [coerceProperties]
    cases hfield : fields.lookup key with
    | some field =>
      rw [hfield] at hsat hund
      have hmem := Value.isJson_of_mem_fields hjson (mem_of_lookup_field hfield)
      dsimp only
      rw [coerce_eq hcheck schema field hmem hsat.1 hund.1, Option.bind_some, setField_of_lookup hfield, hrest]
    | none =>
      rw [hfield] at hund
      dsimp only at hund ⊢
      rw [if_neg hund.1, hrest]

theorem coerceTuple_eq (hcheck : ∀ schema value, value.isJson = true → check schema value = satisfies schema value) :
    ∀ (schemas : List JsonSchema) (xs : List Value), Value.isJsonList xs = true → satisfiesTuple schemas xs = true →
      UndisturbedTuple conv check schemas xs → coerceTuple conv check schemas xs = some xs
  | [], _, _, _, _ => by rw [coerceTuple]; exact nofun
  | _ :: _, [], _, _, _ => by rw [coerceTuple]; exact nofun
  | schema :: schemas, x :: xs, hjson, hsat, hund => by
    rw [Value.isJsonList, Bool.and_eq_true] at hjson
    rw [satisfiesTuple, Bool.and_eq_true] at hsat
    rw [UndisturbedTuple] at hund
    rw [coerceTuple, coerce_eq hcheck schema x hjson.1 hsat.1 hund.1, Option.bind_some,
      coerceTuple_eq hcheck schemas xs hjson.2 hsat.2 hund.2]
    rfl

end

/-- A union goes past the members that reject the value. -/
theorem coerceUnion_append {value : Value} (hjson : value.isJson = true) (schemas : List JsonSchema) :
    ∀ {front : List JsonSchema}, (∀ schema ∈ front, Rejects conv check schema value) →
      coerceWithUnionSchema conv check (front ++ schemas) value = coerceWithUnionSchema conv check schemas value
  | [], _ => rfl
  | schema :: front, h => by
    obtain ⟨⟨coerced, hcoerced, hfalse⟩, hrest⟩ := List.forall_mem_cons.mp h
    rw [List.cons_append, coerceWithUnionSchema, if_pos hjson, hcoerced, Option.bind_some, hfalse, if_neg Bool.false_ne_true,
      coerceUnion_append hjson schemas hrest]

/-- **A value that satisfies the schema is returned as it is**, if no union on the way disturbs it; and a union does not
return a value that its first member not to reject it is not satisfied by. -/
theorem coerce_unchanged (conv : Conversions) (check : JsonSchema → Value → Bool)
    (hcheck : ∀ schema value, value.isJson = true → check schema value = satisfies schema value) :
    (∀ (schema : JsonSchema) (value : Value), value.isJson = true → satisfies schema value = true →
      Undisturbed conv check schema value → coerceWithJsonSchema conv check schema value = some value) ∧
    (∀ (front : List JsonSchema) (schema : JsonSchema) (back : List JsonSchema) (value : Value), value.isJson = true →
      (∀ earlier ∈ front, Rejects conv check earlier value) → satisfies schema value = false →
        ¬ Rejects conv check schema value → coerceWithUnionSchema conv check (front ++ schema :: back) value ≠ some value) := by
  refine ⟨coerce_eq hcheck, fun front schema back value hjson hfront hunsatisfied hmatch hsame => hmatch ?_⟩
  rw [coerceUnion_append hjson _ hfront, coerceWithUnionSchema, if_pos hjson] at hsame
  obtain ⟨coerced, hcoerced, hresult⟩ := Option.bind_eq_some_iff.mp hsame
  refine ⟨coerced, hcoerced, ?_⟩
  split at hresult
  · next htrue =>
    -- what the member was made to match is another value
    obtain rfl := Option.some.inj hresult
    rw [hcheck schema coerced hjson, hunsatisfied] at htrue
    cases htrue
  · next hfalse => exact Bool.not_eq_true _ ▸ hfalse

/-- A schema with a type alone. -/
def JsonSchema.ofType (type : JsonType) : JsonSchema := .mk [type] [] none none [] [] []

/-- A schema with `anyOf` alone. -/
def JsonSchema.ofAnyOf (schemas : List JsonSchema) : JsonSchema := .mk [] [] none none [] schemas []

theorem coerce_ofType (type : JsonType) (s : String) :
    coerceWithJsonSchema conv check (.ofType type) (.str s) = some (coerceTypes conv [type] (.str s)) := by
  unfold JsonSchema.ofType coerceWithJsonSchema
  simp only [coerceAll, coerceWithUnionSchema, Option.bind_some]
  cases hvalue : coerceTypes conv [type] (.str s) <;> simp [coerceProperties]

theorem coerce_ofAnyOf (schemas : List JsonSchema) (value : Value) :
    coerceWithJsonSchema conv check (.ofAnyOf schemas) value = coerceWithUnionSchema conv check schemas value := by
  unfold JsonSchema.ofAnyOf coerceWithJsonSchema
  simp only [coerceAll, coerceWithUnionSchema, Option.bind_some]
  refine (congrArg _ (funext fun coerced => ?_)).trans (Option.bind_fun_some _)
  rw [coerceTypes_of_matches (Or.inl rfl)]
  cases coerced <;> simp

/-- Conversions of a decimal digit. -/
def digits : Conversions where
  number := fun s =>
    match s.toList with
    | [c] => if c.isDigit then some (c.toNat - 48 : ℕ) else none
    | _ => none
  string := fun n => toString n.num

/-- The conversion of a digit to a number. -/
theorem coerce_number_digit : coerceWithJsonSchema digits satisfies (.ofType .number) (.str "1") = some (.num 1) := by
  rw [coerce_ofType]
  rfl

/-- A string or a number, and a number or an object, of a digit. -/
theorem coerce_unchanged_digit :
    coerceWithJsonSchema digits satisfies (.ofAnyOf [.ofType .string, .ofType .number]) (.str "1") = some (.str "1") ∧
      coerceWithUnionSchema digits satisfies
        ([JsonSchema.ofType .object] ++ JsonSchema.ofType .number :: [JsonSchema.ofType .string]) (.str "1") ≠
        some (.str "1") := by
  have hobject : Rejects digits satisfies (.ofType .object) (.str "1") := ⟨.str "1", coerce_ofType .object "1", rfl⟩
  refine ⟨(coerce_unchanged digits satisfies fun _ _ _ => rfl).1 _ _ rfl rfl ?_,
    (coerce_unchanged digits satisfies fun _ _ _ => rfl).2 [.ofType .object] (.ofType .number) [.ofType .string] (.str "1") rfl
      (List.forall_mem_singleton.mpr hobject) rfl ?_⟩
  · unfold JsonSchema.ofAnyOf Undisturbed UndisturbedUnion UndisturbedAll
    refine ⟨trivial, ?_, trivial, trivial⟩
    rw [if_pos (show satisfies (.ofType .string) (.str "1") = true from rfl)]
    unfold JsonSchema.ofType Undisturbed UndisturbedUnion UndisturbedAll
    exact ⟨trivial, trivial, trivial, trivial⟩
  · rintro ⟨coerced, hcoerced, hfalse⟩
    obtain rfl := Option.some.inj (coerce_number_digit.symm.trans hcoerced)
    cases hfalse

/-- A number or a string: the string of a digit becomes a number. -/
theorem coerce_union_converts : ¬ ∀ (schema : JsonSchema) (value : Value), value.isJson = true → satisfies schema value = true →
    coerceWithJsonSchema digits satisfies schema value = some value := by
  intro h
  have hsame := h (.ofAnyOf [.ofType .number, .ofType .string]) (.str "1") rfl rfl
  rw [coerce_ofAnyOf, coerceWithUnionSchema, if_pos (show (Value.str "1").isJson = true from rfl), coerce_number_digit] at hsame
  cases hsame

-- A type behind a union may turn the number back into the string, so that a disturbed value comes back all the same.
example : coerceWithJsonSchema digits satisfies (.mk [.string] [] none none [] [.ofType .number, .ofType .string] []) (.str "1") =
    some (.str "1") := by
  unfold coerceWithJsonSchema
  rw [coerceAll, Option.bind_some, coerceWithUnionSchema, if_pos (show (Value.str "1").isJson = true from rfl), coerce_number_digit]
  rfl

end Trek.Ai.Coercion
