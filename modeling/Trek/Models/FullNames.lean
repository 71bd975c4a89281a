/-
# A model and its full name

Every model should be addressed by `provider/id`, and with a thinking level by `provider/id:level`. Where the provider is
inferred, the id is a reference among the models of the provider, and a reference is read as `provider/id` before it is
read as an id: a model whose id starts with its provider gives way to the model that the id names (`not_addressed`). An id
with the level after it may be a part of another model's id, and a provider with a slash in its name is not inferred. Which
models are addressed by their full names is decided here (`addressed_iff`).
-/
import Mathlib.Data.List.Pairwise
import Trek.Models.Resolver

namespace Trek.Models

variable {locale : Locale} {models candidates : List Model} {model x : Model} {level : ThinkingLevel}
  {pattern text : List Char}

/-! ### Levels at the end of a pattern -/

/-- The pattern with a thinking level. -/
def withLevel (pattern : List Char) (level : ThinkingLevel) : List Char := pattern ++ ':' :: level.text

theorem isValidThinkingLevel_text (level : ThinkingLevel) : isValidThinkingLevel level.text = some level := by
  cases level <;> decide

theorem colon_notMem_text (level : ThinkingLevel) : ':' ∉ level.text := by
  cases level <;> decide

theorem cutAtLastColon_withLevel (pattern : List Char) (level : ThinkingLevel) :
    cutAtLastColon (withLevel pattern level) = some (pattern, level.text) := by
  have hcolon : ':' ∉ level.text.reverse := fun h => colon_notMem_text level (List.mem_reverse.mp h)
  have hreverse : (withLevel pattern level).reverse = level.text.reverse ++ ':' :: pattern.reverse := by
    simp [withLevel]
  rw [cutAtLastColon, hreverse, cutAt_singleton hcolon, Option.map_some, List.reverse_reverse, List.reverse_reverse]

theorem trimChars_withLevel_ne_nil (pattern : List Char) (level : ThinkingLevel) : trimChars (withLevel pattern level) ≠ [] := by
  have hmem : ':' ∈ withLevel pattern level := by simp [withLevel]
  rw [← List.count_pos_iff, ← count_trimChars (by decide), List.count_pos_iff] at hmem
  exact List.ne_nil_of_mem hmem

/-! ### What is matched -/

theorem mem_of_onlyMatch {matched : List Model} {next : Option Model} (h : onlyMatch matched next = some x) :
    x ∈ matched ∨ next = some x := by
  match matched with
  | [] => exact .inr h
  | [y] =>
    obtain rfl : y = x := Option.some.inj h
    exact .inl List.mem_cons_self
  | _ :: _ :: _ => cases h

theorem mem_of_findExact (h : findExactModelReferenceMatch locale pattern models = some x) : x ∈ models := by
  unfold findExactModelReferenceMatch at h
  dsimp only at h
  split at h
  · cases h
  · rcases mem_of_onlyMatch h with hmem | h
    · exact List.mem_of_mem_filter hmem
    rcases mem_of_onlyMatch h with hmem | h
    · exact List.mem_of_mem_filter hmem
    rcases mem_of_onlyMatch h with hmem | h
    · exact List.mem_of_mem_filter hmem
    · cases h

theorem mem_of_highestId (h : highestId locale models = some x) : x ∈ models :=
  List.mem_mergeSort.mp (List.mem_of_head? h)

theorem highestId_eq_none : highestId locale models = none ↔ models = [] := by
  rw [highestId, List.head?_eq_none_iff, ← List.length_eq_zero_iff, List.length_mergeSort, List.length_eq_zero_iff]

theorem mem_of_tryMatchModel (h : tryMatchModel locale pattern models = some x) : x ∈ models := by
  unfold tryMatchModel at h
  cases hexact : findExactModelReferenceMatch locale pattern models with
  | some y =>
    simp only [hexact, Option.some.injEq] at h
    exact h ▸ mem_of_findExact hexact
  | none =>
    simp only [hexact] at h
    split at h
    · exact List.mem_of_mem_filter (List.mem_of_mem_filter (mem_of_highestId h))
    · exact List.mem_of_mem_filter (List.mem_of_mem_filter (mem_of_highestId h))

theorem tryMatchModel_eq_none : tryMatchModel locale pattern models = none ↔
    findExactModelReferenceMatch locale pattern models = none ∧ ∀ x ∈ models, isPartialMatch locale pattern x = false := by
  unfold tryMatchModel
  cases hexact : findExactModelReferenceMatch locale pattern models with
  | some y => simp
  | none =>
    dsimp only
    rw [and_iff_right rfl]
    have hnone : models.filter (isPartialMatch locale pattern) = [] ↔ ∀ x ∈ models, isPartialMatch locale pattern x = false := by
      rw [List.filter_eq_nil_iff]
      simp
    rw [← hnone]
    by_cases haliases : (models.filter (isPartialMatch locale pattern)).filter (isAlias ·.id) = []
    · rw [if_neg (not_not.mpr haliases), highestId_eq_none]
      constructor
      · intro hdated
        rw [List.eq_nil_iff_forall_not_mem]
        intro x hx
        cases halias : isAlias x.id with
        | true => exact List.ne_nil_of_mem (List.mem_filter.mpr ⟨hx, halias⟩) haliases
        | false => exact List.ne_nil_of_mem (List.mem_filter.mpr ⟨hx, by simp [halias]⟩) hdated
      · intro h
        rw [h]
        rfl
    · rw [if_pos haliases, highestId_eq_none]
      refine iff_of_false haliases fun h => haliases ?_
      rw [h]
      rfl

/-! ### Patterns -/

theorem parseModelPattern_of_match (allow : Bool) (h : tryMatchModel locale pattern models = some x) :
    parseModelPattern locale pattern models allow = ⟨some x, none, none⟩ := by
  rw [parseModelPattern]
  simp only [h]

theorem parseModelPattern_withLevel {allow : Bool} (h : tryMatchModel locale (withLevel pattern level) models = none) :
    parseModelPattern locale (withLevel pattern level) models allow =
      let result := parseModelPattern locale pattern models allow
      if result.model.isSome then ⟨result.model, if result.warning.isSome then none else some level, result.warning⟩
      else result := by
  rw [parseModelPattern]
  simp only [h]
  split
  · next hcut =>
    rw [cutAtLastColon_withLevel] at hcut
    cases hcut
  · next before suffix hcut =>
    rw [cutAtLastColon_withLevel] at hcut
    cases hcut
    simp only [isValidThinkingLevel_text]

/-- Only the fallback warns. -/
theorem warning_parseModelPattern (locale : Locale) (pattern : List Char) (models : List Model) :
    (parseModelPattern locale pattern models false).warning = none := by
  fun_induction parseModelPattern locale pattern models false
  case case3 ih => exact ih
  case case4 ih => exact ih
  all_goals simp_all

theorem mem_of_parseModelPattern {allow : Bool} : (parseModelPattern locale pattern models allow).model = some x → x ∈ models := by
  fun_induction parseModelPattern locale pattern models allow
  case case1 y hmatch =>
    intro h
    obtain rfl : y = x := Option.some.inj h
    exact mem_of_tryMatchModel hmatch
  case case3 ih => exact ih
  case case4 ih => exact ih
  case case6 ih => exact ih
  case case7 ih => exact ih
  all_goals exact nofun

/-- A level is read where nothing matches before it is taken off. -/
theorem parseModelPattern_level_iff : ((parseModelPattern locale (withLevel pattern level) models false).model = some x ∧
    (parseModelPattern locale (withLevel pattern level) models false).thinkingLevel = some level) ↔
      tryMatchModel locale (withLevel pattern level) models = none ∧
        (parseModelPattern locale pattern models false).model = some x := by
  cases hmatch : tryMatchModel locale (withLevel pattern level) models with
  | some y =>
    rw [parseModelPattern_of_match false hmatch]
    simp
  | none =>
    rw [parseModelPattern_withLevel hmatch, and_iff_right rfl]
    dsimp only
    rw [warning_parseModelPattern]
    cases hmodel : (parseModelPattern locale pattern models false).model with
    | none => simp [hmodel]
    | some y => simp

theorem parseModelPattern_level_eq_none : (parseModelPattern locale (withLevel pattern level) models false).model = none ↔
    tryMatchModel locale (withLevel pattern level) models = none ∧
      (parseModelPattern locale pattern models false).model = none := by
  cases hmatch : tryMatchModel locale (withLevel pattern level) models with
  | some y =>
    rw [parseModelPattern_of_match false hmatch]
    simp
  | none =>
    rw [parseModelPattern_withLevel hmatch, and_iff_right rfl]
    dsimp only
    cases hmodel : (parseModelPattern locale pattern models false).model with
    | none => simp [hmodel]
    | some y => simp

/-! ### The provider -/

theorem get?_providerMap {key provider : List Char} (h : (providerMap locale models).get? key = some provider) :
    key = locale.toLowerCase provider := by
  have hfold : ∀ (models : List Model) (map : OrdMap (List Char) (List Char)),
      (∀ k v, map.get? k = some v → k = locale.toLowerCase v) → ∀ k v,
        (models.foldl (fun map model => map.set (locale.toLowerCase model.provider) model.provider) map).get? k = some v →
          k = locale.toLowerCase v := by
    intro models
    induction models with
    | nil => exact fun map hmap => hmap
    | cons model models ih =>
      intro map hmap
      refine ih _ fun k v hget => ?_
      rw [OrdMap.get?_set] at hget
      split at hget
      · next hkey =>
        obtain rfl := Option.some.inj hget
        exact hkey
      · exact hmap k v hget
  exact hfold models .empty (by simp) key provider h

/-- A level at the end of a reference does not change the provider. -/
theorem inferProvider_append {text : List Char} (h : '/' ∈ text) (more : List Char) :
    inferProvider locale models (text ++ more) = (inferProvider locale models text).map fun p => (p.1, p.2 ++ more) := by
  unfold inferProvider
  cases hcut : cutAt ['/'] text with
  | none =>
    obtain ⟨a, b, rfl⟩ := List.append_of_mem h
    exact absurd ⟨a, b, by simp⟩ ((cutAt_eq_none_iff (List.cons_ne_nil _ _)).mp hcut)
  | some parts =>
    obtain ⟨maybeProvider, pattern⟩ := parts
    rw [cutAt_append (List.cons_ne_nil _ _) more hcut]
    simp [Function.comp_def]

theorem slash_mem_fullName (model : Model) : '/' ∈ model.fullName :=
  List.mem_append_right _ List.mem_cons_self

/-- Where the provider of the model is inferred, the id is left. -/
theorem id_of_inferProvider (h : inferProvider locale models model.fullName = some (model.provider, pattern)) :
    pattern = model.id := by
  unfold inferProvider at h
  cases hcut : cutAt ['/'] model.fullName with
  | none => simp [hcut] at h
  | some parts =>
    obtain ⟨maybeProvider, rest⟩ := parts
    simp only [hcut] at h
    obtain ⟨provider, hfind, heq⟩ := Option.map_eq_some_iff.mp h
    cases heq
    have hlower := get?_providerMap (Option.eq_some_of_filter_eq_some hfind)
    have hnot := notMem_of_cutAt hcut
    have hname : model.provider ++ '/' :: model.id = maybeProvider ++ '/' :: pattern := eq_of_cutAt hcut
    rcases List.append_eq_append_iff.mp hname with ⟨more, hprovider, hmore⟩ | ⟨more, hprovider, hmore⟩
    · cases more with
      | nil => exact (List.cons.inj hmore).2.symm
      | cons c more =>
        -- the text before the slash would have one
        rw [hprovider, ← (List.cons.inj hmore).1] at hnot
        exact absurd (List.mem_append_right _ List.mem_cons_self) hnot
    · cases more with
      | nil => exact (List.cons.inj hmore).2
      | cons c more =>
        -- the provider would be longer than the text that names it
        rw [hprovider, ← (List.cons.inj hmore).1, locale.toLowerCase_slash] at hlower
        exact absurd (List.self_eq_append_right.mp hlower) (List.cons_ne_nil _ _)

/-! ### Among the models of a provider -/

/-- No two models have a provider and an id in common, whatever the case. -/
def Distinct (locale : Locale) (models : List Model) : Prop :=
  models.Pairwise fun x y => ¬(locale.toLowerCase x.provider = locale.toLowerCase y.provider ∧
    locale.toLowerCase x.id = locale.toLowerCase y.id)

/-- Models of one provider with different ids. -/
structure OfProvider (locale : Locale) (candidates : List Model) (provider : List Char) : Prop where
  provider_eq : ∀ x ∈ candidates, x.provider = provider
  ids_ne : candidates.Pairwise fun x y => locale.toLowerCase x.id ≠ locale.toLowerCase y.id

/-- The reference is read as the provider and the id of the model. -/
def refersTo (locale : Locale) (pattern : List Char) (x : Model) : Bool :=
  isCanonicalMatch locale (trimChars pattern) x || isProviderMatch locale (trimChars pattern) x

/-- The reference is read as the model in any way. -/
def resembles (locale : Locale) (pattern : List Char) (x : Model) : Bool :=
  refersTo locale pattern x || isIdMatch locale (trimChars pattern) x || isPartialMatch locale pattern x

section

variable {provider : List Char} {p : Model → Bool} {y : Model}

theorem Distinct.ofProvider (h : Distinct locale models) (provider : List Char) :
    OfProvider locale (models.filter (·.provider = provider)) provider := by
  have hprovider : ∀ x ∈ models.filter (·.provider = provider), x.provider = provider := by
    intro x hx
    exact of_decide_eq_true (List.mem_filter.mp hx).2
  refine ⟨hprovider, (List.Pairwise.filter _ h).imp_of_mem ?_⟩
  intro x y hx hy hxy hid
  refine hxy ⟨?_, hid⟩
  rw [hprovider x hx, hprovider y hy]

theorem OfProvider.eq_of_id (h : OfProvider locale candidates provider) (hx : x ∈ candidates) (hy : y ∈ candidates)
    (hid : locale.toLowerCase x.id = locale.toLowerCase y.id) : x = y := by
  have hsymm : Std.Symm fun x y : Model => locale.toLowerCase x.id ≠ locale.toLowerCase y.id :=
    ⟨fun _ _ hxy heq => hxy heq.symm⟩
  by_contra hne
  exact h.ids_ne.forall hx hy hne hid

/-- A test that tells the ids apart has one match at most. -/
theorem OfProvider.onlyMatch_filter (h : OfProvider locale candidates provider)
    (hp : ∀ x ∈ candidates, ∀ y ∈ candidates, p x = true → p y = true → locale.toLowerCase x.id = locale.toLowerCase y.id)
    (next : Option Model) : onlyMatch (candidates.filter p) next = (candidates.find? p).or next := by
  rw [← List.head?_filter]
  cases hmatched : candidates.filter p with
  | nil => rfl
  | cons x rest =>
    cases rest with
    | nil => rfl
    | cons y rest =>
      have hx := List.mem_filter.mp (hmatched.symm ▸ List.mem_cons_self : x ∈ candidates.filter p)
      have hy := List.mem_filter.mp (hmatched.symm ▸ List.mem_cons_of_mem x List.mem_cons_self : y ∈ candidates.filter p)
      have hne := h.ids_ne.filter p
      rw [hmatched] at hne
      exact absurd (hp x hx.1 y hy.1 hx.2 hy.2) (List.rel_of_pairwise_cons hne List.mem_cons_self)

theorem OfProvider.canonical (h : OfProvider locale candidates provider) (hx : x ∈ candidates) (hy : y ∈ candidates)
    (hpx : isCanonicalMatch locale text x = true) (hpy : isCanonicalMatch locale text y = true) :
    locale.toLowerCase x.id = locale.toLowerCase y.id := by
  have heq := (of_decide_eq_true hpx).trans (of_decide_eq_true hpy).symm
  rw [Model.fullName, Model.fullName, locale.toLowerCase_slash, locale.toLowerCase_slash, h.provider_eq x hx,
    h.provider_eq y hy] at heq
  exact (List.cons.inj (List.append_cancel_left heq)).2

theorem isProviderMatch_id (hpx : isProviderMatch locale text x = true) (hpy : isProviderMatch locale text y = true) :
    locale.toLowerCase x.id = locale.toLowerCase y.id := by
  unfold isProviderMatch at hpx hpy
  cases hparts : providerAndId text with
  | none => simp [hparts] at hpx
  | some parts =>
    simp only [hparts, Bool.and_eq_true, decide_eq_true_eq] at hpx hpy
    exact hpx.2.trans hpy.2.symm

theorem isIdMatch_id (hpx : isIdMatch locale text x = true) (hpy : isIdMatch locale text y = true) :
    locale.toLowerCase x.id = locale.toLowerCase y.id :=
  (of_decide_eq_true hpx).trans (of_decide_eq_true hpy).symm

theorem OfProvider.findExact_eq (h : OfProvider locale candidates provider) (ht : trimChars pattern ≠ []) :
    findExactModelReferenceMatch locale pattern candidates =
      (candidates.find? (isCanonicalMatch locale (trimChars pattern))).or
        ((candidates.find? (isProviderMatch locale (trimChars pattern))).or
          (candidates.find? (isIdMatch locale (trimChars pattern)))) := by
  unfold findExactModelReferenceMatch
  dsimp only
  rw [if_neg ht, h.onlyMatch_filter fun x hx y hy => h.canonical hx hy,
    h.onlyMatch_filter fun x _ y _ => isProviderMatch_id, h.onlyMatch_filter fun x _ y _ => isIdMatch_id, Option.or_none]

theorem OfProvider.tryMatchModel_eq_none (h : OfProvider locale candidates provider) (ht : trimChars pattern ≠ []) :
    tryMatchModel locale pattern candidates = none ↔ ∀ x ∈ candidates, resembles locale pattern x = false := by
  rw [Models.tryMatchModel_eq_none, h.findExact_eq ht, Option.or_eq_none_iff, Option.or_eq_none_iff, List.find?_eq_none,
    List.find?_eq_none, List.find?_eq_none]
  unfold resembles refersTo
  simp only [Bool.or_eq_false_iff, Bool.not_eq_true]
  constructor
  · rintro ⟨⟨hcanonical, hprovider, hid⟩, hpartial⟩ x hx
    exact ⟨⟨⟨hcanonical x hx, hprovider x hx⟩, hid x hx⟩, hpartial x hx⟩
  · intro hall
    exact ⟨⟨fun x hx => (hall x hx).1.1.1, fun x hx => (hall x hx).1.1.2, fun x hx => (hall x hx).1.2⟩,
      fun x hx => (hall x hx).2⟩

/-- A full name is longer than the id. -/
theorem not_canonical_self (locale : Locale) (model : Model) : isCanonicalMatch locale model.id model = false := by
  apply decide_eq_false
  intro heq
  rw [Model.fullName, locale.toLowerCase_slash] at heq
  have hlength := congrArg List.length heq
  rw [List.length_append, List.length_cons] at hlength
  omega

/-- An id names its model where no other model is referred to by it. -/
theorem OfProvider.tryMatchModel_id (h : OfProvider locale candidates provider) (hm : model ∈ candidates)
    (htrim : trimChars model.id = model.id) (hne : model.id ≠ []) :
    tryMatchModel locale model.id candidates = some model ↔ ∀ x ∈ candidates, refersTo locale model.id x = true → x = model := by
  have htext : trimChars model.id ≠ [] := by rw [htrim]; exact hne
  have hexact := h.findExact_eq htext
  have hmatch : ∀ {y}, findExactModelReferenceMatch locale model.id candidates = some y →
      tryMatchModel locale model.id candidates = some y := by
    intro y hy
    rw [tryMatchModel, hy]
  rw [htrim] at hexact
  unfold refersTo
  simp only [htrim, Bool.or_eq_true]
  cases hcanonical : candidates.find? (isCanonicalMatch locale model.id) with
  | some y =>
    have hy := List.mem_of_find?_eq_some hcanonical
    have hpy := List.find?_some hcanonical
    rw [hmatch (hexact.trans (by rw [hcanonical, Option.some_or])), Option.some.injEq]
    constructor
    · rintro rfl
      rw [not_canonical_self] at hpy
      cases hpy
    · intro hall
      exact hall y hy (.inl hpy)
  | none =>
    have hno := List.find?_eq_none.mp hcanonical
    rw [hcanonical, Option.none_or] at hexact
    cases hprovider : candidates.find? (isProviderMatch locale model.id) with
    | some y =>
      have hy := List.mem_of_find?_eq_some hprovider
      have hpy := List.find?_some hprovider
      rw [hmatch (hexact.trans (by rw [hprovider, Option.some_or])), Option.some.injEq]
      constructor
      · rintro rfl x hx (hpx | hpx)
        · exact absurd hpx (hno x hx)
        · exact h.eq_of_id hx hy (isProviderMatch_id hpx hpy)
      · intro hall
        exact hall y hy (.inr hpy)
    | none =>
      have hno' := List.find?_eq_none.mp hprovider
      cases hid : candidates.find? (isIdMatch locale model.id) with
      | none => exact absurd (decide_eq_true rfl) (List.find?_eq_none.mp hid model hm)
      | some y =>
        have hpy := List.find?_some hid
        obtain rfl : y = model := h.eq_of_id (List.mem_of_find?_eq_some hid) hm (of_decide_eq_true hpy)
        rw [hmatch (hexact.trans (by rw [hprovider, hid, Option.none_or])), eq_self, true_iff]
        rintro x hx (hpx | hpx)
        · exact absurd hpx (hno x hx)
        · exact absurd hpx (hno' x hx)

end

/-! ### References -/

/-- The model and the thinking level that a reference is resolved to. -/
def Reads (result : ResolveCliModelResult) (model : Model) (level : Option ThinkingLevel) : Prop :=
  result.model = some model ∧ result.thinkingLevel = level

/-- The full name is the model without a level, and the full name with the level is the model with it, unless it is a full
name itself. -/
def Addressed (locale : Locale) (models : List Model) (model : Model) (level : ThinkingLevel) : Prop :=
  Reads (resolveCliModel locale none (some model.fullName) models) model none ∧
    ((∃ x ∈ models, locale.toLowerCase x.fullName = locale.toLowerCase (withLevel model.fullName level)) ∨
      Reads (resolveCliModel locale none (some (withLevel model.fullName level)) models) model (some level))

/-- Among the models of its provider the id of a model is read as the model: no model is referred to by it as
`provider/id`, and where there is white space around it the search for it ends at the model. -/
def IdNames (locale : Locale) (candidates : List Model) (model : Model) : Prop :=
  if trimChars model.id = model.id ∧ model.id ≠ [] then ∀ x ∈ candidates, refersTo locale model.id x = true → x = model
  else tryMatchModel locale model.id candidates = some model

/-- Among all models the text is matched by none with the level, and by the model first without it. -/
def ReadsWhole (locale : Locale) (models : List Model) (model : Model) (level : ThinkingLevel) : Prop :=
  models.find? (isNamed locale (withLevel model.fullName level)) = none ∧
    tryMatchModel locale (withLevel model.fullName level) models = none ∧
    (parseModelPattern locale model.fullName models false).model = some model

/-- Where the provider of the model is inferred, its id is read as the model among the models of the provider, and the id
with the level resembles none of them. Where no provider or another one is inferred, the model is the first with the text
as its id or its full name, and what is left of the text matches nothing of the other provider. -/
def Addressable (locale : Locale) (models : List Model) (model : Model) (level : ThinkingLevel) : Prop :=
  let taken := ∃ x ∈ models, locale.toLowerCase x.fullName = locale.toLowerCase (withLevel model.fullName level)
  match inferProvider locale models model.fullName with
  | none => models.find? (isNamed locale model.fullName) = some model ∧ (taken ∨ ReadsWhole locale models model level)
  | some (provider, pattern) =>
    let candidates := models.filter (·.provider = provider)
    if provider = model.provider then
      IdNames locale candidates model ∧ (taken ∨ ∀ x ∈ candidates, resembles locale (withLevel model.id level) x = false)
    else
      (parseModelPattern locale pattern candidates false).model = none ∧
        models.find? (isNamed locale model.fullName) = some model ∧
        (taken ∨ tryMatchModel locale (withLevel pattern level) candidates = none ∧ ReadsWhole locale models model level)

theorem find?_isNamed_ne_none (locale : Locale) (hm : model ∈ models) : models.find? (isNamed locale model.fullName) ≠ none := by
  intro h
  exact List.find?_eq_none.mp h model hm (by simp [isNamed])

theorem provider_of_fallback {provider modelId : List Char} (h : buildFallbackModel provider modelId models = some x) :
    x.provider = provider := by
  have hfilter : ∀ y ∈ models.filter (·.provider = provider), y.provider = provider := by
    intro y hy
    exact of_decide_eq_true (List.mem_filter.mp hy).2
  unfold buildFallbackModel at h
  dsimp only at h
  obtain ⟨base, hbase, rfl⟩ := Option.map_eq_some_iff.mp h
  rcases Option.or_eq_some_iff.mp hbase with hfind | ⟨-, hhead⟩
  · obtain ⟨id, -, hid⟩ := Option.bind_eq_some_iff.mp hfind
    exact hfilter base (List.mem_of_find?_eq_some hid)
  · exact hfilter base (List.mem_of_head? hhead)

section

variable {cliModel provider : List Char} {found : Option ThinkingLevel}

theorem filter_cliModel (hne : cliModel ≠ []) : (some cliModel).filter (· ≠ []) = some cliModel := by
  simpa using hne

theorem resolveCliModel_inferred (hne : cliModel ≠ []) (hmodels : models ≠ [])
    (h : inferProvider locale models cliModel = some (provider, pattern)) :
    resolveCliModel locale none (some cliModel) models = resolvePattern locale cliModel (some provider) pattern true models := by
  rw [resolveCliModel, filter_cliModel hne]
  simp only [if_neg hmodels, Option.filter_none, h]

theorem resolveCliModel_named (hne : cliModel ≠ []) (hmodels : models ≠ []) (h : inferProvider locale models cliModel = none)
    (hfind : models.find? (isNamed locale cliModel) = some x) :
    resolveCliModel locale none (some cliModel) models = { model := some x } := by
  rw [resolveCliModel, filter_cliModel hne]
  simp only [if_neg hmodels, Option.filter_none, h, hfind]

theorem resolveCliModel_plain (hne : cliModel ≠ []) (hmodels : models ≠ []) (h : inferProvider locale models cliModel = none)
    (hfind : models.find? (isNamed locale cliModel) = none) :
    resolveCliModel locale none (some cliModel) models = resolvePattern locale cliModel none cliModel false models := by
  rw [resolveCliModel, filter_cliModel hne]
  simp only [if_neg hmodels, Option.filter_none, h, hfind]

theorem reads_resolvePattern_found
    (h : (parseModelPattern locale pattern (models.filter (·.provider = provider)) false).model = some x) :
    Reads (resolvePattern locale cliModel (some provider) pattern true models) model found ↔
      x = model ∧ (parseModelPattern locale pattern (models.filter (·.provider = provider)) false).thinkingLevel = found := by
  unfold Reads resolvePattern
  simp [h]

theorem reads_resolvePattern_left (hprovider : provider ≠ model.provider)
    (h : (parseModelPattern locale pattern (models.filter (·.provider = provider)) false).model = none) :
    Reads (resolvePattern locale cliModel (some provider) pattern true models) model found ↔
      ∃ whole, resolveWhole locale cliModel models = some whole ∧ Reads whole model found := by
  unfold resolvePattern
  simp only [h, Option.isSome_none, Bool.false_eq_true, if_false, if_true]
  cases resolveWhole locale cliModel models with
  | some whole => simp
  | none =>
    refine iff_of_false ?_ (by simp)
    rintro ⟨hmodel, -⟩
    cases hfallback : buildFallbackModel provider pattern models with
    | none => simp [hfallback] at hmodel
    | some base =>
      simp only [hfallback, Option.some.injEq] at hmodel
      exact hprovider (provider_of_fallback (hmodel ▸ hfallback)).symm

theorem reads_resolvePattern_plain : Reads (resolvePattern locale cliModel none cliModel false models) model found ↔
    (parseModelPattern locale cliModel models false).model = some model ∧
      ((parseModelPattern locale cliModel models false).thinkingLevel = found) := by
  unfold Reads resolvePattern
  cases h : (parseModelPattern locale cliModel models false).model with
  | none => simp [h]
  | some x => simp [h]

theorem reads_resolveWhole_named (h : models.find? (isNamed locale cliModel) = some x) :
    (∃ whole, resolveWhole locale cliModel models = some whole ∧ Reads whole model found) ↔ x = model ∧ none = found := by
  unfold resolveWhole Reads
  simp [h]

theorem reads_resolveWhole (h : models.find? (isNamed locale cliModel) = none) :
    (∃ whole, resolveWhole locale cliModel models = some whole ∧ Reads whole model found) ↔
      (parseModelPattern locale cliModel models false).model = some model ∧
        (parseModelPattern locale cliModel models false).thinkingLevel = found := by
  unfold resolveWhole Reads
  cases hmodel : (parseModelPattern locale cliModel models false).model with
  | none => simp [h, hmodel]
  | some x => simp [h, hmodel]

end

/-! ### Which models are addressed -/

theorem withLevel_ne_nil (text : List Char) (level : ThinkingLevel) : withLevel text level ≠ [] := by
  simp [withLevel]

theorem fullName_ne_nil (model : Model) : model.fullName ≠ [] := by
  simp [Model.fullName]

theorem inferProvider_withLevel (locale : Locale) (models : List Model) (model : Model) (level : ThinkingLevel) :
    inferProvider locale models (withLevel model.fullName level) =
      (inferProvider locale models model.fullName).map fun p => (p.1, withLevel p.2 level) :=
  inferProvider_append (slash_mem_fullName model) _

theorem readsWhole_iff : ReadsWhole locale models model level ↔
    ∃ whole, resolveWhole locale (withLevel model.fullName level) models = some whole ∧ Reads whole model (some level) := by
  unfold ReadsWhole
  cases hfind : models.find? (isNamed locale (withLevel model.fullName level)) with
  | some x =>
    rw [reads_resolveWhole_named hfind]
    simp
  | none => rw [reads_resolveWhole hfind, parseModelPattern_level_iff, and_iff_right rfl]

/-- No provider is inferred. -/
theorem addressed_plain (hm : model ∈ models) (hinfer : inferProvider locale models model.fullName = none) :
    Addressed locale models model level ↔ Addressable locale models model level := by
  have hmodels : models ≠ [] := List.ne_nil_of_mem hm
  have hlevel : inferProvider locale models (withLevel model.fullName level) = none := by
    rw [inferProvider_withLevel, hinfer, Option.map_none]
  unfold Addressed Addressable
  simp only [hinfer]
  refine and_congr ?_ (or_congr_right ?_)
  · obtain ⟨x, hx⟩ := Option.ne_none_iff_exists'.mp (find?_isNamed_ne_none locale hm)
    rw [resolveCliModel_named (fullName_ne_nil model) hmodels hinfer hx, hx]
    exact and_iff_left rfl
  · cases hfind : models.find? (isNamed locale (withLevel model.fullName level)) with
    | some x =>
      rw [resolveCliModel_named (withLevel_ne_nil _ _) hmodels hlevel hfind]
      exact iff_of_false (fun h => Option.some_ne_none _ h.2.symm) fun h => Option.some_ne_none _ (hfind.symm.trans h.1)
    | none =>
      rw [resolveCliModel_plain (withLevel_ne_nil _ _) hmodels hlevel hfind, reads_resolvePattern_plain,
        parseModelPattern_level_iff]
      exact (and_iff_right hfind).symm

/-- The provider of the model is inferred. -/
theorem addressed_own (hdistinct : Distinct locale models) (hm : model ∈ models)
    (hinfer : inferProvider locale models model.fullName = some (model.provider, pattern)) :
    Addressed locale models model level ↔ Addressable locale models model level := by
  have hmodels : models ≠ [] := List.ne_nil_of_mem hm
  have hlevel : inferProvider locale models (withLevel model.fullName level) =
      some (model.provider, withLevel pattern level) := by
    rw [inferProvider_withLevel, hinfer, Option.map_some]
  obtain rfl := id_of_inferProvider hinfer
  have hmem : model ∈ models.filter (·.provider = model.provider) := List.mem_filter.mpr ⟨hm, decide_eq_true rfl⟩
  have hof := hdistinct.ofProvider model.provider
  unfold Addressed Addressable
  simp only [hinfer, if_true]
  rw [resolveCliModel_inferred (fullName_ne_nil model) hmodels hinfer,
    resolveCliModel_inferred (withLevel_ne_nil _ _) hmodels hlevel]
  -- the id is at least a part of itself
  have hsome : tryMatchModel locale model.id (models.filter (·.provider = model.provider)) ≠ none := by
    intro h
    have hpart := (tryMatchModel_eq_none.mp h).2 model hmem
    simp [isPartialMatch] at hpart
  obtain ⟨x, hx⟩ := Option.ne_none_iff_exists'.mp hsome
  have hparse := parseModelPattern_of_match false hx
  have hnames : IdNames locale (models.filter (·.provider = model.provider)) model ↔ x = model := by
    unfold IdNames
    split
    · next htrim => rw [← hof.tryMatchModel_id hmem htrim.1 htrim.2, hx, Option.some.injEq]
    · rw [hx, Option.some.injEq]
  rw [hnames, reads_resolvePattern_found (by rw [hparse]), hparse, and_iff_left rfl]
  refine and_congr_right fun heq => or_congr_right ?_
  rw [← hof.tryMatchModel_eq_none (trimChars_withLevel_ne_nil _ _)]
  have hmodel : (parseModelPattern locale model.id (models.filter (·.provider = model.provider)) false).model = some model := by
    rw [hparse, heq]
  refine Iff.trans ?_ (parseModelPattern_level_iff.trans (and_iff_left hmodel))
  cases hfound : (parseModelPattern locale (withLevel model.id level) (models.filter (·.provider = model.provider)) false).model with
  | none =>
    have hnone := (parseModelPattern_level_eq_none.mp hfound).2
    rw [hparse] at hnone
    cases hnone
  | some y => rw [reads_resolvePattern_found hfound, Option.some.injEq]

/-- Another provider is inferred. -/
theorem addressed_other {provider : List Char} (hm : model ∈ models) (hprovider : provider ≠ model.provider)
    (hinfer : inferProvider locale models model.fullName = some (provider, pattern)) :
    Addressed locale models model level ↔ Addressable locale models model level := by
  have hmodels : models ≠ [] := List.ne_nil_of_mem hm
  have hlevel : inferProvider locale models (withLevel model.fullName level) = some (provider, withLevel pattern level) := by
    rw [inferProvider_withLevel, hinfer, Option.map_some]
  -- what is matched is of the other provider
  have hother : ∀ {pattern x}, (parseModelPattern locale pattern (models.filter (·.provider = provider)) false).model = some x →
      x ≠ model := by
    rintro pattern x hx rfl
    exact hprovider (of_decide_eq_true (List.mem_filter.mp (mem_of_parseModelPattern hx)).2).symm
  unfold Addressed Addressable
  simp only [hinfer, if_neg hprovider]
  rw [resolveCliModel_inferred (fullName_ne_nil model) hmodels hinfer,
    resolveCliModel_inferred (withLevel_ne_nil _ _) hmodels hlevel, ← and_assoc]
  cases hparse : (parseModelPattern locale pattern (models.filter (·.provider = provider)) false).model with
  | some x =>
    rw [reads_resolvePattern_found hparse]
    exact iff_of_false (fun h => hother hparse h.1.1) fun h => Option.some_ne_none _ h.1.1
  | none =>
    obtain ⟨x, hx⟩ := Option.ne_none_iff_exists'.mp (find?_isNamed_ne_none locale hm)
    rw [reads_resolvePattern_left hprovider hparse, reads_resolveWhole_named hx, hx, and_iff_left rfl, and_iff_right rfl,
      Option.some.injEq]
    refine and_congr_right fun _ => or_congr_right ?_
    cases hfound : (parseModelPattern locale (withLevel pattern level) (models.filter (·.provider = provider)) false).model with
    | some y =>
      rw [reads_resolvePattern_found hfound]
      refine iff_of_false (fun h => hother hfound h.1) fun h => ?_
      rw [parseModelPattern_level_eq_none.mpr ⟨h.1, hparse⟩] at hfound
      cases hfound
    | none =>
      rw [reads_resolvePattern_left hprovider hfound, ← readsWhole_iff,
        and_iff_right (parseModelPattern_level_eq_none.mp hfound).1]

/-- A model is addressed by its full name exactly where it is addressable. -/
theorem addressed_iff (level : ThinkingLevel) (hdistinct : Distinct locale models) (hm : model ∈ models) :
    Addressed locale models model level ↔ Addressable locale models model level := by
  cases hinfer : inferProvider locale models model.fullName with
  | none => exact addressed_plain hm hinfer
  | some parts =>
    obtain ⟨provider, pattern⟩ := parts
    by_cases hprovider : provider = model.provider
    · obtain rfl := hprovider
      exact addressed_own hdistinct hm hinfer
    · exact addressed_other hm hprovider hinfer

/-- Texts of the letters from A to Z. -/
def plainLocale : Locale where
  toLowerCase := List.map Char.toLower
  toLowerCase_slash a b := by simp only [List.map_append, List.map_cons]; rfl
  localeCompare a b := if a < b then -1 else if b < a then 1 else 0

def gpt4 : Model := ⟨"openai".toList, "gpt-4".toList, some "GPT 4".toList⟩

def gpt4Mini : Model := ⟨"openai".toList, "gpt-4-mini".toList, some "GPT 4 mini".toList⟩

/-- The id of a model that starts with its provider. -/
def ownGpt4 : Model := ⟨"openai".toList, "openai/gpt-4".toList, none⟩

theorem addressed_gpt4 : Addressed plainLocale [gpt4Mini, gpt4] gpt4 .high := by
  refine (addressed_iff .high ?_ (List.mem_cons_of_mem _ List.mem_cons_self)).mpr ?_
  · unfold Distinct
    decide
  · have hinfer : inferProvider plainLocale [gpt4Mini, gpt4] gpt4.fullName = some (gpt4.provider, gpt4.id) := by decide
    unfold Addressable
    simp only [hinfer, if_true]
    refine ⟨?_, .inr (by decide)⟩
    rw [IdNames, if_pos (by decide)]
    decide

/-- The full name of the second model is read as a provider and the full name of the first. -/
theorem not_addressed : Distinct plainLocale [gpt4, ownGpt4] ∧ ownGpt4 ∈ [gpt4, ownGpt4] ∧
    ¬ Addressed plainLocale [gpt4, ownGpt4] ownGpt4 .off := by
  refine ⟨?_, List.mem_cons_of_mem _ List.mem_cons_self, fun h => ?_⟩
  · unfold Distinct
    decide
  · have hread := h.1.1
    revert hread
    decide +kernel

end Trek.Models
