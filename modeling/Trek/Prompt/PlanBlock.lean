/-
# The plan block of a system prompt

`applyPlanBlock` of `core/runtime/planning-brief.ts` puts a plan into a system prompt, in the place of its plan block if it
has one and else after it, and `extractPlanBody` reads the plan of the first block. The tag of a block ends at the first
`>`, which may be one of the role or the reason, a replacement string is expanded, and an open tag in the prompt takes
the end of a block that comes after it. Where none of this happens the plan is read back and the rest of the prompt is as it
was, and nowhere else (`readsBack_iff`).
-/
import Trek.Lib.FirstMatch

namespace Trek

/-! ### The pattern -/

/-- `/<\/plan>/i`. -/
def closeTag : Pattern Unit := fun text => (dropWord "</plan>".toList text).map fun rest => ((), rest)

/-- A match of the pattern, and its group. -/
structure PlanBlock where
  text : List Char
  body : List Char
  deriving DecidableEq

/-- A text starts with `/<plan\b/i`. -/
def opensPlan (text : List Char) : Bool :=
  match dropWord "<plan".toList text with
  | none => false
  | some rest => !rest.head?.any isWordChar

/-- `/<plan\b[^>]*>([\s\S]*?)<\/plan>/i`. -/
def planBlock : Pattern PlanBlock := fun text =>
  if opensPlan text then
    match (text.drop 5).dropWhile (· ≠ '>') with
    | [] => none
    | _ :: inner => (firstMatch closeTag inner).map fun f => (⟨text.take (text.length - f.after.length), f.before⟩, f.after)
  else none

def extractPlanBody (systemPrompt : List Char) : List Char :=
  match firstMatch planBlock systemPrompt with
  | some f => trimChars f.what.body
  | none => []

/-- The block of a plan. -/
def planText (role reason body : List Char) : List Char :=
  "<plan role=\"".toList ++ (role ++ ("\" reason=\"".toList ++ (reason ++ ("\">\n".toList ++ (body ++ "\n</plan>".toList)))))

def applyPlanBlock (systemPrompt role reason body : List Char) : List Char :=
  let block := planText role reason (trimChars body)
  match firstMatch planBlock systemPrompt with
  | some f => f.before ++ (expandReplacement f.what.text f.before f.after block ++ f.after)
  | none => systemPrompt ++ ("\n\n".toList ++ block)

/-! ### The end of a block -/

theorem closeTag_ne_none {text : List Char} : closeTag text ≠ none ↔ ∃ rest, dropWord "</plan>".toList text = some rest := by
  unfold closeTag
  rw [ne_eq, Option.map_eq_none_iff, ← ne_eq, Option.ne_none_iff_exists']

/-- A character that is none of the tag's is in no closing tag. -/
theorem closeTag_append_cons {c : Char} (hc : c.toLower ∉ "</plan>".toList) {text after : List Char} :
    closeTag (text ++ c :: after) ≠ none → closeTag text ≠ none := by
  rw [closeTag_ne_none, closeTag_ne_none]
  rintro ⟨rest, hrest⟩
  obtain ⟨rest', hrest', -⟩ := dropWord_append_cons hc hrest
  exact ⟨rest', hrest'⟩

theorem closeTag_nil : closeTag [] = none := by decide

theorem closeTag_head {c : Char} (hc : c.toLower ∉ "</plan>".toList) (after : List Char) : closeTag (c :: after) = none := by
  by_contra h
  have happend : closeTag ([] ++ c :: after) ≠ none := h
  exact closeTag_append_cons hc happend closeTag_nil

theorem closeTag_append {text : List Char} (after : List Char) (h : closeTag text ≠ none) : closeTag (text ++ after) ≠ none := by
  rw [closeTag_ne_none] at h ⊢
  obtain ⟨rest, hrest⟩ := h
  exact ⟨_, dropWord_append hrest after⟩

theorem closeTag_close (after : List Char) : closeTag ("</plan>".toList ++ after) = some ((), after) := by
  have hdrop : dropWord "</plan>".toList ("</plan>".toList ++ after) = some after :=
    dropWord_eq_some.mpr ⟨"</plan>".toList, rfl, by decide⟩
  rw [closeTag, hdrop, Option.map_some]

/-- What a closing tag is found in has one at its start or further on. -/
theorem closeTag_eq_some {text after : List Char} (h : closeTag text = some ((), after)) :
    ∃ close, text = close ++ after ∧ close.map Char.toLower = "</plan>".toList := by
  unfold closeTag at h
  obtain ⟨rest, hrest, heq⟩ := Option.map_eq_some_iff.mp h
  obtain rfl := congrArg Prod.snd heq
  exact dropWord_eq_some.mp hrest

/-- A body without a closing tag is read to the end of its block. -/
theorem firstMatch_closeTag {body : List Char} (h : firstMatch closeTag body = none) (after : List Char) :
    firstMatch closeTag (body ++ ("\n</plan>".toList ++ after)) = some ⟨body ++ ['\n'], (), after⟩ := by
  rw [firstMatch_eq_some]
  refine ⟨"</plan>".toList ++ after, ?_, closeTag_close after, fun a b heq hne => ?_⟩
  · rw [List.append_assoc]
    rfl
  · by_contra hsome
    -- a tag that starts before the line end would be one of the body
    obtain ⟨rest, last, hb⟩ := (List.eq_nil_or_concat b).resolve_left hne
    rw [List.concat_eq_append] at hb
    have hends : body ++ ['\n'] = (a ++ rest) ++ [last] := by rw [List.append_assoc, ← hb]; exact heq
    obtain ⟨hbody, hlast⟩ := List.append_inj' hends rfl
    obtain rfl : '\n' = last := (List.cons.inj hlast).1
    rw [hb, List.append_assoc] at hsome
    exact closeTag_append_cons (by decide) hsome (firstMatch_eq_none.mp h a rest hbody)

theorem toLower_of_isJsSpace {c : Char} (h : isJsSpace c = true) : c.toLower = c := by
  apply dif_neg
  rintro ⟨hge, hle⟩
  have hge' : 65 ≤ c.toNat := UInt32.le_iff_toNat_le.mp hge
  have hle' : c.toNat ≤ 90 := UInt32.le_iff_toNat_le.mp hle
  unfold isJsSpace at h
  simp only [List.mem_cons, List.not_mem_nil, or_false, Bool.or_eq_true, decide_eq_true_eq, Bool.and_eq_true] at h
  omega

/-- White space is in no closing tag. -/
theorem notMem_close_of_isJsSpace {c : Char} (h : isJsSpace c = true) : c.toLower ∉ "</plan>".toList := by
  rw [toLower_of_isJsSpace h]
  have hnone : "</plan>".toList.all (fun d => !isJsSpace d) = true := by decide
  intro hmem
  have hfalse := List.all_eq_true.mp hnone c hmem
  rw [h] at hfalse
  exact Bool.false_ne_true hfalse

/-- A character that is in no closing tag parts the tags. -/
theorem firstMatch_closeTag_cons {c : Char} (hc : c.toLower ∉ "</plan>".toList) {before after : List Char} :
    firstMatch closeTag (before ++ c :: after) = none ↔
      firstMatch closeTag before = none ∧ firstMatch closeTag after = none := by
  have hhead : closeTag (c :: after) = none := closeTag_head hc after
  induction before with
  | nil =>
    rw [List.nil_append, firstMatch_cons hhead, Option.map_eq_none_iff]
    exact (and_iff_right (by decide)).symm
  | cons d before ih =>
    rw [List.cons_append]
    cases hd : closeTag (d :: before) with
    | some m =>
      have happend : closeTag (d :: before ++ c :: after) ≠ none :=
        closeTag_append _ (by rw [hd]; exact Option.some_ne_none _)
      refine iff_of_false (firstMatch_ne_none happend []) fun h => ?_
      rw [firstMatch_of_match hd] at h
      exact Option.some_ne_none _ h.1
    | none =>
      have hnone : closeTag (d :: before ++ c :: after) = none := by
        by_contra h
        exact closeTag_append_cons hc h hd
      rw [List.cons_append] at hnone
      rw [firstMatch_cons hnone, firstMatch_cons hd, Option.map_eq_none_iff, Option.map_eq_none_iff]
      exact ih

theorem firstMatch_closeTag_nil : firstMatch closeTag [] = none := by decide

theorem firstMatch_closeTag_space : ∀ {space : List Char}, (∀ c ∈ space, isJsSpace c = true) → ∀ text : List Char,
    firstMatch closeTag (space ++ text) = none ↔ firstMatch closeTag text = none
  | [], _, _ => Iff.rfl
  | c :: space, h, text => by
    have hc := notMem_close_of_isJsSpace (h c List.mem_cons_self)
    have hcons : firstMatch closeTag ([] ++ c :: (space ++ text)) = none ↔ _ := firstMatch_closeTag_cons hc
    rw [List.nil_append, and_iff_right firstMatch_closeTag_nil] at hcons
    exact hcons.trans (firstMatch_closeTag_space (fun d hd => h d (List.mem_cons_of_mem _ hd)) text)

/-- White space around a text makes no closing tag. -/
theorem firstMatch_closeTag_trimChars (text : List Char) :
    firstMatch closeTag (trimChars text) = none ↔ firstMatch closeTag text = none := by
  obtain ⟨before, after, hbefore, hafter, heq⟩ := exists_eq_trimChars text
  conv_rhs => rw [heq, firstMatch_closeTag_space hbefore]
  cases after with
  | nil => rw [List.append_nil]
  | cons c space =>
    have hspace : firstMatch closeTag (space ++ []) = none :=
      (firstMatch_closeTag_space (fun d hd => hafter d (List.mem_cons_of_mem _ hd)) []).mpr firstMatch_closeTag_nil
    rw [List.append_nil] at hspace
    rw [firstMatch_closeTag_cons (notMem_close_of_isJsSpace (hafter c List.mem_cons_self)), and_iff_left hspace]

/-! ### The start of a block -/

theorem opensPlan_eq_true {text : List Char} : opensPlan text = true ↔
    ∃ start rest, text = start ++ rest ∧ start.map Char.toLower = "<plan".toList ∧ rest.head?.any isWordChar = false := by
  unfold opensPlan
  cases h : dropWord "<plan".toList text with
  | none =>
    refine iff_of_false Bool.false_ne_true ?_
    rintro ⟨start, rest, heq, hstart, -⟩
    rw [dropWord_eq_some.mpr ⟨start, heq, hstart⟩] at h
    cases h
  | some rest =>
    obtain ⟨start, heq, hstart⟩ := dropWord_eq_some.mp h
    constructor
    · intro hboundary
      exact ⟨start, rest, heq, hstart, by simpa using hboundary⟩
    · rintro ⟨start', rest', heq', hstart', hboundary⟩
      have hsame := dropWord_eq_some.mpr ⟨start', heq', hstart'⟩
      rw [h] at hsame
      obtain rfl := Option.some.inj hsame
      simpa using hboundary

/-- A text has the end of a tag, and a closing tag after it. -/
def Closes (text : List Char) : Prop :=
  ∃ attributes inner, text = attributes ++ '>' :: inner ∧ firstMatch closeTag inner ≠ none

theorem Closes.append {text : List Char} (h : Closes text) (before : List Char) : Closes (before ++ text) := by
  obtain ⟨attributes, inner, rfl, hclose⟩ := h
  exact ⟨before ++ attributes, inner, (List.append_assoc _ _ _).symm, hclose⟩

/-- The tag ends at the first `>`. -/
theorem dropWhile_attributes {attributes : List Char} (h : '>' ∉ attributes) (inner : List Char) :
    (attributes ++ '>' :: inner).dropWhile (· ≠ '>') = '>' :: inner := by
  rw [List.dropWhile_append_of_pos (fun c hc => by simpa using fun heq : c = '>' => h (heq ▸ hc))]
  simp

theorem exists_first_end {text : List Char} (h : Closes text) :
    ∃ attributes inner, text = attributes ++ '>' :: inner ∧ '>' ∉ attributes ∧ firstMatch closeTag inner ≠ none := by
  obtain ⟨attributes, inner, rfl, hclose⟩ := h
  by_cases hmem : '>' ∈ attributes
  · obtain ⟨first, rest, rfl, hfirst⟩ := List.eq_append_cons_of_mem hmem
    refine ⟨first, rest ++ '>' :: inner, by simp, hfirst, ?_⟩
    have happend := firstMatch_append_ne_none (rest ++ ['>']) hclose
    rwa [List.append_assoc] at happend
  · exact ⟨attributes, inner, rfl, hmem, hclose⟩

theorem planBlock_of_opens {text attributes inner : List Char} (hopens : opensPlan text = true)
    (htext : text.drop 5 = attributes ++ '>' :: inner) (hattributes : '>' ∉ attributes) :
    planBlock text = (firstMatch closeTag inner).map fun f =>
      (⟨text.take (text.length - f.after.length), f.before⟩, f.after) := by
  rw [planBlock, if_pos hopens, htext, dropWhile_attributes hattributes]

/-- A block starts where its tag opens, ends, and is closed. -/
theorem planBlock_ne_none {text : List Char} : planBlock text ≠ none ↔ opensPlan text = true ∧ Closes (text.drop 5) := by
  constructor
  · intro h
    have hopens : opensPlan text = true := by
      by_contra hopens
      exact h (if_neg hopens)
    refine ⟨hopens, ?_⟩
    rw [planBlock, if_pos hopens] at h
    have hsplit := List.takeWhile_append_dropWhile (p := fun c => decide (c ≠ '>')) (l := text.drop 5)
    cases hinner : (text.drop 5).dropWhile (· ≠ '>') with
    | nil =>
      rw [hinner] at h
      exact absurd rfl h
    | cons c inner =>
      rw [hinner] at h hsplit
      have hend : c = '>' := by
        have hhead := List.head?_dropWhile_not (fun c => decide (c ≠ '>')) (text.drop 5)
        rw [hinner] at hhead
        simpa using hhead
      rw [hend] at hsplit
      refine ⟨_, inner, hsplit.symm, fun hnone => h ?_⟩
      simp only [hnone, Option.map_none]
  · rintro ⟨hopens, hcloses⟩
    obtain ⟨attributes, inner, htext, hattributes, hclose⟩ := exists_first_end hcloses
    rw [planBlock_of_opens hopens htext hattributes, ne_eq, Option.map_eq_none_iff]
    exact hclose

/-- The parts of a block. -/
theorem planBlock_eq_some {text after : List Char} {block : PlanBlock} (h : planBlock text = some (block, after)) :
    ∃ start attributes close, text = start ++ (attributes ++ '>' :: (block.body ++ (close ++ after))) ∧
      start.map Char.toLower = "<plan".toList ∧ '>' ∉ attributes ∧ close.map Char.toLower = "</plan>".toList ∧
      text = block.text ++ after := by
  obtain ⟨hopens, hcloses⟩ := planBlock_ne_none.mp (by rw [h]; exact Option.some_ne_none _)
  obtain ⟨attributes, inner, htext, hattributes, -⟩ := exists_first_end hcloses
  rw [planBlock_of_opens hopens htext hattributes] at h
  obtain ⟨f, hf, heq⟩ := Option.map_eq_some_iff.mp h
  obtain ⟨rest, hinner, hclose, -⟩ := firstMatch_eq_some.mp hf
  obtain ⟨close, hrest, hlower⟩ := closeTag_eq_some hclose
  obtain ⟨start, rest', hstart, hplan, -⟩ := opensPlan_eq_true.mp hopens
  have hlength : start.length = 5 := by
    rw [← List.length_map (f := Char.toLower), hplan]
    rfl
  have hdrop : text.drop 5 = rest' := by rw [hstart, ← hlength, List.drop_left]
  cases heq
  have hparts : text = start ++ (attributes ++ '>' :: (f.before ++ (close ++ f.after))) := by
    rw [hstart, ← hdrop, htext, hinner, hrest]
  refine ⟨start, attributes, close, hparts, hplan, hattributes, hlower, ?_⟩
  have hsuffix : f.after <:+ text := ⟨start ++ (attributes ++ '>' :: (f.before ++ close)), by rw [hparts]; simp⟩
  obtain ⟨matched, hmatched⟩ := hsuffix
  rw [← hmatched, List.length_append, Nat.add_sub_cancel, List.take_left]

/-! ### The block of a plan -/

section

variable {role reason body after : List Char}

/-- The attributes of the tag that is written. -/
def planAttributes (role reason : List Char) : List Char :=
  " role=\"".toList ++ (role ++ ("\" reason=\"".toList ++ (reason ++ "\"".toList)))

theorem planText_append (role reason body after : List Char) : planText role reason body ++ after =
    "<plan".toList ++ (planAttributes role reason ++ '>' :: ('\n' :: body ++ ("\n</plan>".toList ++ after))) := by
  unfold planText planAttributes
  simp

theorem head?_planAttributes (role reason rest : List Char) : (planAttributes role reason ++ rest).head? = some ' ' := by
  unfold planAttributes
  simp

theorem opensPlan_planText (role reason body after : List Char) : opensPlan (planText role reason body ++ after) = true := by
  rw [opensPlan_eq_true]
  refine ⟨_, _, planText_append role reason body after, by decide, ?_⟩
  rw [head?_planAttributes]
  decide

theorem drop_planText (role reason body after : List Char) : (planText role reason body ++ after).drop 5 =
    planAttributes role reason ++ '>' :: ('\n' :: body ++ ("\n</plan>".toList ++ after)) := by
  rw [planText_append]
  rfl

theorem closes_planText (role reason body after : List Char) : Closes ((planText role reason body ++ after).drop 5) := by
  refine ⟨_, _, drop_planText role reason body after, ?_⟩
  have hclose : closeTag ("</plan>".toList ++ after) ≠ none := by
    rw [closeTag_close]
    exact Option.some_ne_none _
  have hfound := firstMatch_ne_none hclose (('\n' :: body) ++ ['\n'])
  rwa [List.append_assoc] at hfound

theorem notMem_planAttributes (hrole : '>' ∉ role) (hreason : '>' ∉ reason) : '>' ∉ planAttributes role reason := by
  unfold planAttributes
  simp [hrole, hreason]

/-- Without a `>` in its attributes and a closing tag in its body, the block that is written is a block. -/
theorem planBlock_planText (hrole : '>' ∉ role) (hreason : '>' ∉ reason) (hbody : firstMatch closeTag body = none)
    (after : List Char) : planBlock (planText role reason body ++ after) =
      some (⟨planText role reason body, '\n' :: body ++ ['\n']⟩, after) := by
  have hbody' : firstMatch closeTag ('\n' :: body) = none := by
    have hline : closeTag ('\n' :: body) = none := closeTag_head (by decide) body
    rw [firstMatch_cons hline, hbody]
    rfl
  rw [planBlock_of_opens (opensPlan_planText role reason body after) (drop_planText role reason body after)
    (notMem_planAttributes hrole hreason), firstMatch_closeTag hbody' after, Option.map_some, List.length_append,
    Nat.add_sub_cancel, List.take_left]

theorem planText_eq (role reason body : List Char) : planText role reason body =
    "<plan role=\"".toList ++ (role ++ '"' :: (" reason=\"".toList ++ (reason ++ '"' ::
      (">\n".toList ++ (body ++ '\n' :: "</plan>".toList))))) := by
  unfold planText
  simp

/-- A replacement is expanded in the role, the reason and the body, each by itself. -/
theorem expand_planText {matched before : List Char} : expandReplacement matched before after (planText role reason body) =
    planText (expandReplacement matched before after role) (expandReplacement matched before after reason)
      (expandReplacement matched before after body) := by
  have hquote : '"' ∉ ['$', '&', BACK_QUOTE, APOSTROPHE] := by decide
  have hline : '\n' ∉ ['$', '&', BACK_QUOTE, APOSTROPHE] := by decide
  have hrole : '$' ∉ "<plan role=\"".toList := by decide
  have hreason : '$' ∉ " reason=\"".toList := by decide
  have hend : '$' ∉ ">\n".toList := by decide
  have hclose : '$' ∉ "</plan>".toList := by decide
  rw [planText_eq, planText_eq, expandReplacement_append hrole, expandReplacement_append_cons hquote,
    expandReplacement_append hreason, expandReplacement_append_cons hquote, expandReplacement_append hend,
    expandReplacement_append_cons hline, expandReplacement_of_notMem hclose]

/-- The ends of tags in a block: those of its attributes and its body, and those of its two tags. -/
theorem count_planText (role reason body : List Char) :
    (planText role reason body).count '>' = role.count '>' + reason.count '>' + body.count '>' + 2 := by
  have hopen : ("<plan role=\"".toList).count '>' = 0 := by decide
  have hreason : (" reason=\"".toList).count '>' = 0 := by decide
  have hend : (">\n".toList).count '>' = 1 := by decide
  have hclose : ("</plan>".toList).count '>' = 1 := by decide
  have hquote : '"' ≠ '>' := by decide
  have hline : '\n' ≠ '>' := by decide
  rw [planText_eq]
  simp only [List.count_append, List.count_cons_of_ne hquote, List.count_cons_of_ne hline, hopen, hreason, hend, hclose]
  omega

end

/-! ### Written and read back -/

/-- What is outside the plan block of a prompt: the text before it and after it, and for a prompt without one the prompt, a
blank line, and nothing. -/
def outside (systemPrompt : List Char) : List Char × List Char :=
  match firstMatch planBlock systemPrompt with
  | some f => (f.before, f.after)
  | none => (systemPrompt ++ "\n\n".toList, [])

/-- The trimmed body is read back, and the prompt that is written has one plan block, with the text around it that was outside
the plan block before. -/
structure ReadsBack (systemPrompt role reason body : List Char) : Prop where
  plan : extractPlanBody (applyPlanBlock systemPrompt role reason body) = trimChars body
  block : ∃ f, firstMatch planBlock (applyPlanBlock systemPrompt role reason body) = some f ∧
    firstMatch planBlock f.after = none ∧ (f.before, f.after) = outside systemPrompt

/-- A block put between two texts is found there and is read back exactly where no block starts before it, its attributes
have no `>`, and its body is the trimmed one but for white space around it. -/
theorem found_iff {before after role reason written body : List Char} (hclose : firstMatch closeTag body = none)
    (hcount : (trimChars body).count '>' ≤ written.count '>') :
    (∃ f, firstMatch planBlock (before ++ (planText role reason written ++ after)) = some f ∧
        f.before = before ∧ f.after = after ∧ trimChars f.what.body = trimChars body) ↔
      (∀ a b, before = a ++ b → b ≠ [] → planBlock (b ++ (planText role reason written ++ after)) = none) ∧
        '>' ∉ role ∧ '>' ∉ reason ∧ trimChars written = trimChars body := by
  have hcount_map : ∀ l : List Char, l.count '>' ≤ (l.map Char.toLower).count '>' := fun l =>
    List.count_le_count_map (f := Char.toLower) (x := '>')
  have hline : ∀ c ∈ ['\n'], isJsSpace c = true := List.forall_mem_singleton.mpr (by decide)
  have hopens := opensPlan_planText role reason written after
  have hdrop := drop_planText role reason written after
  constructor
  · rintro ⟨f, hf, rfl, rfl, hbody⟩
    obtain ⟨rest, htext, hblock, hfirst⟩ := firstMatch_eq_some.mp hf
    obtain rfl := List.append_cancel_left htext
    -- the ends of tags are counted in the text as it was written and as it is read
    have hends : role.count '>' + reason.count '>' + written.count '>' ≤ f.what.body.count '>' := by
      obtain ⟨start, attributes, close, hparts, hstart, hattributes, hlower, -⟩ := planBlock_eq_some hblock
      have hread := congrArg (List.count '>') hparts
      have hzero := hcount_map start
      have hone := hcount_map close
      have hstart0 : ("<plan".toList).count '>' = 0 := by decide
      have hclose1 : ("</plan>".toList).count '>' = 1 := by decide
      rw [hstart, hstart0] at hzero
      rw [hlower, hclose1] at hone
      rw [List.count_append, count_planText, List.count_append, List.count_append, List.count_eq_zero.mpr hattributes,
        List.count_cons_self, List.count_append, List.count_append] at hread
      omega
    have hspace : isJsSpace '>' = false := by decide
    rw [← count_trimChars hspace f.what.body, hbody] at hends
    have hrole : '>' ∉ role := List.count_eq_zero.mp (by omega)
    have hreason : '>' ∉ reason := List.count_eq_zero.mp (by omega)
    refine ⟨hfirst, hrole, hreason, ?_⟩
    rw [planBlock_of_opens hopens hdrop (notMem_planAttributes hrole hreason)] at hblock
    obtain ⟨g, hg, heq⟩ := Option.map_eq_some_iff.mp hblock
    obtain ⟨rest, hinner, hclosing, -⟩ := firstMatch_eq_some.mp hg
    obtain ⟨close, rfl, hlower⟩ := closeTag_eq_some hclosing
    have hafter : g.after = f.after := congrArg Prod.snd heq
    have hread : g.before = f.what.body := congrArg (PlanBlock.body ∘ Prod.fst) heq
    have hlength : close.length = "</plan>".toList.length := by rw [← hlower, List.length_map]
    -- the tag that is found is the one at the end
    have hsplit : ('\n' :: written ++ ['\n']) ++ ("</plan>".toList ++ f.after) = f.what.body ++ (close ++ f.after) := by
      rw [← hread, ← hafter, ← hinner, hafter, List.append_assoc]
      rfl
    have hlengths : ("</plan>".toList ++ f.after).length = (close ++ f.after).length := by
      rw [List.length_append, List.length_append, hlength]
    rw [← hbody, ← (List.append_inj' hsplit hlengths).1]
    exact ((trimChars_append_right hline _).trans (trimChars_append_left hline written)).symm
  · rintro ⟨hfirst, hrole, hreason, htrim⟩
    have hwritten : firstMatch closeTag written = none := by
      rwa [← firstMatch_closeTag_trimChars, htrim, firstMatch_closeTag_trimChars]
    refine ⟨⟨before, _, after⟩, firstMatch_eq_some.mpr ⟨_, rfl, planBlock_planText hrole hreason hwritten after, hfirst⟩,
      rfl, rfl, ?_⟩
    rw [← htrim]
    exact (trimChars_append_right hline _).trans (trimChars_append_left hline written)

/-! ### Texts before the block -/

theorem opensPlan_cons_ne {d : Char} (hd : d.toLower ≠ '<') (text : List Char) : opensPlan (d :: text) = false := by
  rw [Bool.eq_false_iff, ne_eq, opensPlan_eq_true]
  rintro ⟨start, rest, heq, hstart, -⟩
  cases start with
  | nil => exact absurd hstart (by decide)
  | cons e start =>
    obtain rfl : d = e := (List.cons.inj heq).1
    exact hd (List.cons.inj hstart).1

/-- An open tag is the same before any text that starts with a character that cannot go on with it. -/
theorem opensPlan_append_cons {c : Char} (hc : c.toLower ∉ "plan".toList) (hword : isWordChar c = false) (d : Char)
    (text after : List Char) : opensPlan (d :: text ++ c :: after) = opensPlan (d :: text) := by
  rw [Bool.eq_iff_iff, opensPlan_eq_true, opensPlan_eq_true]
  constructor
  · rintro ⟨start, rest, heq, hstart, hboundary⟩
    cases start with
    | nil => exact absurd hstart (by decide)
    | cons e start =>
      obtain ⟨hde, heq⟩ := List.cons.inj heq
      have hplan : start.map Char.toLower = "plan".toList := (List.cons.inj hstart).2
      rcases List.append_eq_append_iff.mp heq with ⟨more, hmore, hrest⟩ | ⟨more, hmore, hrest⟩
      · cases more with
        | nil =>
          refine ⟨e :: start, [], ?_, hstart, rfl⟩
          rw [hmore, hde]
          simp
        | cons x more =>
          obtain rfl : c = x := (List.cons.inj hrest).1
          exact absurd (by rw [← hplan, hmore]; simp) hc
      · refine ⟨e :: start, more, by rw [hmore, hde]; rfl, hstart, ?_⟩
        cases more with
        | nil => rfl
        | cons x more =>
          rw [hrest] at hboundary
          exact hboundary
  · rintro ⟨start, rest, heq, hstart, hboundary⟩
    refine ⟨start, rest ++ c :: after, by rw [heq, List.append_assoc], hstart, ?_⟩
    cases rest with
    | nil => simpa using hword
    | cons x rest => exact hboundary

theorem length_of_opensPlan {text : List Char} (h : opensPlan text = true) : 5 ≤ text.length := by
  obtain ⟨start, rest, rfl, hstart, -⟩ := opensPlan_eq_true.mp h
  have hlength : start.length = "<plan".toList.length := by rw [← hstart, List.length_map]
  have hfive : "<plan".toList.length = 5 := by decide
  rw [List.length_append]
  omega

theorem closes_of_planBlock {text : List Char} (h : planBlock text ≠ none) : Closes text := by
  rw [← List.take_append_drop 5 text]
  exact (planBlock_ne_none.mp h).2.append _

theorem planBlock_planText_ne_none (role reason body after : List Char) : planBlock (planText role reason body ++ after) ≠ none :=
  planBlock_ne_none.mpr ⟨opensPlan_planText role reason body after, closes_planText role reason body after⟩

/-- A text with an open tag starts a block where a block comes after it. -/
theorem planBlock_append_ne_none {text rest : List Char} (hlength : 5 ≤ text.length)
    (hopens : opensPlan (text ++ rest) = true) (hcloses : Closes rest) : planBlock (text ++ rest) ≠ none := by
  rw [planBlock_ne_none, List.drop_append_of_le_length hlength]
  exact ⟨hopens, hcloses.append _⟩

theorem eq_of_toLower_eq {c : Char} (h : c.toLower = '<') : c = '<' := by
  unfold Char.toLower at h
  split at h
  · next hupper =>
    have hle : c.val.toNat ≤ 90 := UInt32.le_iff_toNat_le.mp hupper.2
    have hval : (c.val + 32).toNat = 60 := congrArg Char.toNat h
    have h32 : (32 : UInt32).toNat = 32 := by decide
    rw [UInt32.toNat_add, h32, Nat.mod_eq_of_lt (by omega)] at hval
    have hge : 65 ≤ c.val.toNat := UInt32.le_iff_toNat_le.mp hupper.1
    omega
  · exact h

/-- No block that is replaced lets an earlier one start. -/
theorem planBlock_before {before rest : List Char} (hrest : planBlock rest ≠ none) (hbefore : before ≠ [])
    (hnone : planBlock (before ++ rest) = none) (role reason body after : List Char) :
    planBlock (before ++ (planText role reason body ++ after)) = none := by
  by_contra hsome
  obtain ⟨d, before, rfl⟩ := List.exists_cons_of_ne_nil hbefore
  -- both blocks start with `<`
  have hlt : ∀ {text : List Char}, opensPlan text = true → ∃ c text', text = c :: text' ∧ c.toLower = '<' := by
    intro text hopens
    obtain ⟨start, rest', rfl, hstart, -⟩ := opensPlan_eq_true.mp hopens
    cases start with
    | nil => exact absurd hstart (by decide)
    | cons c start => exact ⟨c, start ++ rest', rfl, (List.cons.inj hstart).1⟩
  have hsame : ∀ {text : List Char}, opensPlan text = true → opensPlan (d :: before ++ text) = opensPlan (d :: before) := by
    intro text hopens
    obtain ⟨c, text', rfl, hc⟩ := hlt hopens
    obtain rfl := eq_of_toLower_eq hc
    exact opensPlan_append_cons (by decide) (by decide) d before text'
  have hopens := (planBlock_ne_none.mp hsome).1
  rw [hsame (opensPlan_planText role reason body after)] at hopens
  refine planBlock_append_ne_none (length_of_opensPlan hopens) ?_ (closes_of_planBlock hrest) hnone
  rw [hsame (planBlock_ne_none.mp hrest).1]
  exact hopens

/-- A prompt without an open tag, and a blank line after it, start no block before the one that is written. -/
theorem planBlock_after_prompt {systemPrompt : List Char} {role reason body after : List Char} :
    (∀ a b, systemPrompt ++ "\n\n".toList = a ++ b → b ≠ [] → planBlock (b ++ (planText role reason body ++ after)) = none) ↔
      ∀ before rest, systemPrompt = before ++ rest → opensPlan rest = false := by
  have hline : ('\n').toLower ∉ "plan".toList := by decide
  have hword : isWordChar '\n' = false := by decide
  constructor
  · rintro h before rest rfl
    by_contra hopens
    rw [Bool.not_eq_false] at hopens
    refine planBlock_append_ne_none ?_ ?_ (closes_of_planBlock (planBlock_planText_ne_none role reason body after))
      (h before (rest ++ "\n\n".toList) (List.append_assoc _ _ _) ?_)
    · have := length_of_opensPlan hopens
      rw [List.length_append]
      omega
    · cases rest with
      | nil => exact absurd hopens (by decide)
      | cons d rest =>
        rw [List.append_assoc]
        exact (opensPlan_append_cons hline hword d rest _).trans hopens
    · exact fun hnil => absurd (List.append_eq_nil_iff.mp hnil).2 (by decide)
  · intro h a b heq hne
    by_contra hsome
    have hopens := (planBlock_ne_none.mp hsome).1
    have hcons : ∀ text : List Char, opensPlan ('\n' :: text) = false := opensPlan_cons_ne (by decide)
    rcases List.append_eq_append_iff.mp heq with ⟨more, -, hb⟩ | ⟨more, hmore, hb⟩
    · -- what is left is a part of the blank line
      obtain ⟨x, b, rfl⟩ := List.exists_cons_of_ne_nil hne
      have hall : "\n\n".toList.all (· == '\n') = true := by decide
      have hx : x = '\n' := by simpa using List.all_eq_true.mp hall x (by rw [hb]; simp)
      rw [hx, List.cons_append, hcons] at hopens
      exact Bool.false_ne_true hopens
    · rw [hb] at hopens
      cases more with
      | nil => exact Bool.false_ne_true ((hcons _).symm.trans hopens)
      | cons d rest =>
        rw [List.append_assoc] at hopens
        have hrest := (opensPlan_append_cons hline hword d rest _).symm.trans hopens
        rw [h a (d :: rest) hmore] at hrest
        exact Bool.false_ne_true hrest

/-! ### When a plan is read back -/

/-- Where the prompt has no plan block it has no open tag either, and role and reason have no `>`. Where it has one, role and
reason have none once they are expanded as a replacement, and the body so expanded is the body but for white space around
it. -/
def Writable (systemPrompt role reason body : List Char) : Prop :=
  match firstMatch planBlock systemPrompt with
  | none => (∀ before rest, systemPrompt = before ++ rest → opensPlan rest = false) ∧ '>' ∉ role ∧ '>' ∉ reason
  | some f =>
    '>' ∉ expandReplacement f.what.text f.before f.after role ∧ '>' ∉ expandReplacement f.what.text f.before f.after reason ∧
      trimChars (expandReplacement f.what.text f.before f.after (trimChars body)) = trimChars body

theorem readsBack_of_found {systemPrompt role reason body result before after : List Char}
    (hresult : applyPlanBlock systemPrompt role reason body = result) (houtside : outside systemPrompt = (before, after))
    (hone : firstMatch planBlock after = none) :
    ReadsBack systemPrompt role reason body ↔ ∃ f, firstMatch planBlock result = some f ∧ f.before = before ∧
      f.after = after ∧ trimChars f.what.body = trimChars body := by
  constructor
  · rintro ⟨hplan, f, hf, -, hplace⟩
    rw [houtside] at hplace
    rw [extractPlanBody, hf] at hplan
    rw [hresult] at hf
    exact ⟨f, hf, (Prod.mk.inj hplace).1, (Prod.mk.inj hplace).2, hplan⟩
  · rintro ⟨f, hf, rfl, rfl, hbody⟩
    rw [← hresult] at hf
    refine ⟨?_, f, hf, hone, houtside.symm⟩
    rw [extractPlanBody, hf]
    exact hbody

/-- The plan is read back and the rest of the prompt is kept exactly where the plan is writable. -/
theorem readsBack_iff {systemPrompt body : List Char} (role reason : List Char)
    (hone : ∀ f, firstMatch planBlock systemPrompt = some f → firstMatch planBlock f.after = none)
    (hbody : firstMatch closeTag body = none) :
    ReadsBack systemPrompt role reason body ↔ Writable systemPrompt role reason body := by
  unfold Writable
  cases hfound : firstMatch planBlock systemPrompt with
  | none =>
    have hresult : applyPlanBlock systemPrompt role reason body =
        systemPrompt ++ "\n\n".toList ++ (planText role reason (trimChars body) ++ []) := by
      simp only [applyPlanBlock, hfound, List.append_nil, List.append_assoc]
    have houtside : outside systemPrompt = (systemPrompt ++ "\n\n".toList, []) := by rw [outside, hfound]
    rw [readsBack_of_found hresult houtside (by decide), found_iff hbody (Nat.le_refl _), planBlock_after_prompt,
      trimChars_trimChars]
    simp
  | some f =>
    obtain ⟨rest, -, hblock, hfirst⟩ := firstMatch_eq_some.mp hfound
    have hblock' : planBlock rest ≠ none := by
      rw [hblock]
      exact Option.some_ne_none _
    have hresult : applyPlanBlock systemPrompt role reason body =
        f.before ++ (expandReplacement f.what.text f.before f.after (planText role reason (trimChars body)) ++ f.after) := by
      simp only [applyPlanBlock, hfound]
    have houtside : outside systemPrompt = (f.before, f.after) := by rw [outside, hfound]
    rw [expand_planText] at hresult
    rw [readsBack_of_found hresult houtside (hone f hfound),
      found_iff hbody (count_le_expandReplacement (by decide) (trimChars body))]
    exact and_iff_right fun a b heq hne => planBlock_before hblock' hne (hfirst a b heq hne) _ _ _ _

/-- A plan in the place of another one. -/
theorem readsBack_replaced : ReadsBack "Be brief.\n\n<plan>old</plan>".toList "planning".toList "replan after $1".toList
    " read $HOME ".toList := by
  refine (readsBack_iff _ _ (by decide) (by decide)).mpr ?_
  have hfound : firstMatch planBlock "Be brief.\n\n<plan>old</plan>".toList =
      some ⟨"Be brief.\n\n".toList, ⟨"<plan>old</plan>".toList, "old".toList⟩, []⟩ := by decide
  unfold Writable
  rw [hfound]
  exact ⟨by decide, by decide, by decide⟩

/-- The tag ends at the `>` of the reason. -/
theorem not_readsBack : firstMatch planBlock "Be brief.".toList = none ∧ firstMatch closeTag "read".toList = none ∧
    ¬ ReadsBack "Be brief.".toList "planning".toList "1 > 0".toList "read".toList := by
  refine ⟨by decide, by decide, fun h => ?_⟩
  have hplan := h.plan
  revert hplan
  decide

end Trek
