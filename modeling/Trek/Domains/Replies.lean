/-
# Which replies a prompt has

`substitute` replaces every token of a node that has run, once, where it stands, and does not read what it has inserted
(`substitute_append`). A reply is appended to a prompt where the body does not have the text of its token anywhere. That text
need not be a token: the id may be none `TOKEN` reads, or the word may go on after `output`. Then the reply of a dependency
is in the prompt in neither way (`replies_reach_iff`).
-/
import Trek.Domains.Run

namespace Trek.Domains

/-! ### Texts of tokens -/

/-- A word ends before the text: `\b` behind a letter. -/
def WordEnds (after : List Char) : Prop := after.head?.any isWordChar = false

/-- An id of the kind `TOKEN` reads. -/
structure IsTokenId (id : String) : Prop where
  start : id.toList.head?.any isIdStart = true
  all : ∀ c ∈ id.toList, isIdChar c = true

/-- The body has the token of a node: its text, and the word ends behind it. -/
def TokenIn (id body : String) : Prop := ∃ front back : String, body = front ++ tokenOf id ++ back ∧ WordEnds back.toList

/-- The body has the token of a node, and `TOKEN` reads it. -/
def Readable (id body : String) : Prop := IsTokenId id ∧ TokenIn id body

theorem startsWithWord_iff {word : String} {text : List Char} :
    startsWithWord word text = true ↔ ∃ after, text = word.toList ++ after ∧ WordEnds after := by
  rw [startsWithWord, Bool.and_eq_true, Bool.not_eq_true_eq_eq_false, List.isPrefixOf_iff_prefix]
  constructor
  · rintro ⟨⟨after, rfl⟩, hends⟩
    rw [List.drop_left] at hends
    exact ⟨after, rfl, hends⟩
  · rintro ⟨after, rfl, hends⟩
    rw [List.drop_left]
    exact ⟨⟨after, rfl⟩, hends⟩

/-- A character that is none of the word's, and none of any word's, ends the text like its end does. -/
theorem startsWithWord_append {word : String} {c : Char} (hc : c ∉ word.toList) (hw : isWordChar c = false)
    (text after : List Char) : startsWithWord word (text ++ c :: after) = startsWithWord word text := by
  rw [Bool.eq_iff_iff, startsWithWord_iff, startsWithWord_iff]
  constructor
  · rintro ⟨rest, heq, hends⟩
    rcases List.append_eq_append_iff.mp heq with ⟨more, hword, hrest⟩ | ⟨more, rfl, rfl⟩
    · cases more with
      | nil =>
        rw [List.append_nil] at hword
        exact ⟨[], by rw [hword, List.append_nil], rfl⟩
      | cons d more =>
        obtain rfl : c = d := (List.cons.inj hrest).1
        exact absurd (by rw [hword]; simp) hc
    · refine ⟨more, rfl, ?_⟩
      cases more with
      | nil => rfl
      | cons d more => exact hends
  · rintro ⟨rest, rfl, hends⟩
    refine ⟨rest ++ c :: after, List.append_assoc _ _ _, ?_⟩
    cases rest with
    | nil => exact hw
    | cons d rest => exact hends

theorem toList_tokenOf (id : String) : (tokenOf id).toList = '$' :: (id.toList ++ ".output".toList) := by
  simp only [tokenOf, String.toList_append]
  rfl

/-- The characters of a kind end where the text goes on with a character of another. -/
theorem takeWhile_append_stop {p : Char → Bool} {c : Char} (hc : p c = false) (back : List Char) : ∀ text : List Char,
    (text ++ c :: back).takeWhile p = text.takeWhile p ∧ (text ++ c :: back).dropWhile p = text.dropWhile p ++ c :: back
  | [] => by simp [hc]
  | d :: text => by
    obtain ⟨htake, hdrop⟩ := takeWhile_append_stop hc back text
    rw [List.cons_append, List.takeWhile_cons, List.takeWhile_cons, List.dropWhile_cons, List.dropWhile_cons, htake, hdrop]
    cases p d <;> exact ⟨rfl, rfl⟩

/-! ### What `TOKEN` matches -/

theorem TOKEN_tokenOf {id : String} (hid : IsTokenId id) {after : List Char} (hends : WordEnds after) :
    TOKEN ((tokenOf id).toList ++ after) = some (.output id, after) := by
  have hsplit : _ ∧ _ := @takeWhile_append_stop isIdChar '.' (by decide) ("output".toList ++ after) id.toList
  rw [List.takeWhile_eq_self_iff.mpr hid.all, List.dropWhile_eq_nil_iff.mpr hid.all, List.nil_append] at hsplit
  have htext : (id.toList ++ ".output".toList) ++ after = id.toList ++ '.' :: ("output".toList ++ after) := by
    rw [List.append_assoc]
    rfl
  have hword : startsWithWord ".output" ('.' :: ("output".toList ++ after)) = true :=
    startsWithWord_iff.mpr ⟨after, rfl, hends⟩
  rw [toList_tokenOf, List.cons_append, htext, TOKEN, if_pos rfl]
  simp only [hsplit.1, hsplit.2, hid.start, hword, Bool.and_self, if_true, String.ofList_toList]
  rfl

/-- A match is the token of an id `TOKEN` reads, or the one of the user turn. -/
theorem TOKEN_cases {text after : List Char} {what : Token} (h : TOKEN text = some (what, after)) :
    (∃ id, what = .output id ∧ IsTokenId id ∧ text = (tokenOf id).toList ++ after ∧ WordEnds after) ∨
      what = .userMessage ∧ text = "$USER_MESSAGE".toList ++ after := by
  cases text with
  | nil => cases h
  | cons c text =>
    rw [TOKEN] at h
    split at h
    · next hc =>
      subst hc
      dsimp only at h
      split at h
      · next hid =>
        rw [Bool.and_eq_true, startsWithWord_iff] at hid
        obtain ⟨hstart, rest, hrest, hends⟩ := hid
        rw [hrest] at h
        obtain ⟨rfl, rfl⟩ := Prod.mk.inj (Option.some.inj h)
        refine .inl ⟨_, rfl, ⟨by rwa [String.toList_ofList], ?_⟩, ?_, hends⟩
        · intro c hc
          rw [String.toList_ofList] at hc
          exact List.mem_takeWhile_imp hc
        · rw [toList_tokenOf, String.toList_ofList]
          show '$' :: text = '$' :: (text.takeWhile isIdChar ++ ".output".toList ++ rest)
          rw [List.append_assoc, ← hrest, List.takeWhile_append_dropWhile]
      · split at h
        · next hword =>
          obtain ⟨rest, rfl, -⟩ := startsWithWord_iff.mp hword
          obtain ⟨rfl, rfl⟩ := Prod.mk.inj (Option.some.inj h)
          exact .inr ⟨rfl, rfl⟩
        · cases h
    · cases h

theorem TOKEN_length {text after : List Char} {what : Token} (h : TOKEN text = some (what, after)) :
    after.length < text.length := by
  rcases TOKEN_cases h with ⟨id, -, -, rfl, -⟩ | ⟨-, rfl⟩
  · rw [toList_tokenOf, List.cons_append, List.length_cons, List.length_append]
    omega
  · rw [List.length_append]
    show _ < 13 + _
    omega

/-- No match reaches over a `$`. -/
theorem TOKEN_append {front back : List Char} (hne : front ≠ []) :
    TOKEN (front ++ '$' :: back) = (TOKEN front).map fun m => (m.1, m.2 ++ '$' :: back) := by
  obtain ⟨c, text, rfl⟩ := List.exists_cons_of_ne_nil hne
  rw [List.cons_append, TOKEN, TOKEN]
  split
  · obtain ⟨htake, hdrop⟩ := @takeWhile_append_stop isIdChar '$' (by decide) back text
    have houtput := @startsWithWord_append ".output" '$' (by decide) (by decide) (text.dropWhile isIdChar) back
    have huser := @startsWithWord_append "USER_MESSAGE" '$' (by decide) (by decide) text back
    dsimp only
    rw [htake, hdrop, houtput, huser]
    split
    · next hid =>
      rw [Bool.and_eq_true, startsWithWord_iff] at hid
      obtain ⟨-, rest, hrest, -⟩ := hid
      rw [hrest, List.append_assoc]
      rfl
    · split
      · next hword =>
        obtain ⟨rest, rfl, -⟩ := startsWithWord_iff.mp hword
        rw [List.append_assoc]
        rfl
      · rfl
  · rfl

/-! ### What `substitute` inserts -/

section

variable {workflow : ArchonWorkflow} {nodeId userMessage : String} {outputs : OrdMap String String}

theorem replaceEach_TOKEN_append {ε : Type*} (insert : Token → Except ε (List Char)) (front back : List Char) :
    replaceEach TOKEN insert (front ++ '$' :: back) = (do
      let a ← replaceEach TOKEN insert front
      let b ← replaceEach TOKEN insert ('$' :: back)
      .ok (a ++ b)) :=
  replaceEachFrom_append (Nat.zero_le _) (fun _ _ hne => TOKEN_append hne) fun _ _ _ _ h => TOKEN_length h

/-- **A token is replaced where it stands.** What is before it and what is after it are read by themselves, and the
reply is not read. -/
theorem substitute_append {id reply : String} (hid : IsTokenId id) (hnode : id ∈ workflow.nodes.map (·.id))
    (hreply : outputs.get? id = some reply) (front : String) {back : String} (hends : WordEnds back.toList) :
    substitute (front ++ tokenOf id ++ back) workflow nodeId userMessage outputs = (do
      let a ← substitute front workflow nodeId userMessage outputs
      let b ← substitute back workflow nodeId userMessage outputs
      .ok (a ++ reply ++ b)) := by
  have hinsert : insertToken workflow nodeId userMessage outputs (.output id) = .ok reply.toList := by
    rw [insertToken, if_neg (not_not.mpr hnode), hreply]
  have htoken := @replaceEach_match _ TOKEN (tokenOf id).toList back.toList _
    (insertToken workflow nodeId userMessage outputs) _ (by rw [toList_tokenOf]; exact List.cons_ne_nil _ _) (TOKEN_tokenOf hid hends)
  have happend := replaceEach_TOKEN_append (insertToken workflow nodeId userMessage outputs) front.toList
    (id.toList ++ ".output".toList ++ back.toList)
  rw [← List.cons_append, ← toList_tokenOf, htoken, hinsert] at happend
  rw [substitute, substitute, substitute, String.toList_append, String.toList_append, List.append_assoc, happend]
  cases replaceEach TOKEN (insertToken workflow nodeId userMessage outputs) front.toList with
  | error e => rfl
  | ok a =>
    cases replaceEach TOKEN (insertToken workflow nodeId userMessage outputs) back.toList with
    | error e => rfl
    | ok b =>
      show Except.ok (String.ofList (a ++ (reply.toList ++ b))) = .ok (String.ofList a ++ reply ++ String.ofList b)
      rw [String.ofList_append, String.ofList_append, String.ofList_toList, String.append_assoc]

/-- A reply whose token the body has nowhere to read makes no difference to it. -/
theorem substitute_of_not_readable {dep body : String} (h : ¬ Readable dep body) (reply : String) :
    substitute body workflow nodeId userMessage (outputs.set dep reply) =
      substitute body workflow nodeId userMessage outputs := by
  refine congrArg (Except.map String.ofList) (replaceEachFrom_congr fun text what after hsuffix hmatch => ?_)
  rcases TOKEN_cases hmatch with ⟨id, rfl, hid, htext, hends⟩ | ⟨rfl, -⟩
  · have hne : id ≠ dep := by
      rintro rfl
      obtain ⟨before, hbefore⟩ := hsuffix
      refine h ⟨hid, String.ofList before, String.ofList after, ?_, by rwa [String.toList_ofList]⟩
      apply String.toList_injective
      simp only [← hbefore, htext, String.toList_append, String.toList_ofList, List.append_assoc]
    rw [insertToken, insertToken, OrdMap.get?_set_ne _ _ hne]
  · rfl

theorem replyLines_set {dep dep' body : String} (h : (tokenOf dep).toList <:+: body.toList) (reply : String) :
    replyLines body (outputs.set dep reply) dep' = replyLines body outputs dep' := by
  rcases eq_or_ne dep' dep with rfl | hne
  · rw [replyLines, replyLines, if_pos h, if_pos h]
  · rw [replyLines, replyLines, OrdMap.get?_set_ne _ _ hne]

variable {node : ArchonNode} {facts : List (String × String)} {prompt dep : String}

/-- The reply of a dependency whose token is in the body, but not where it can be read, makes no difference to the
prompt. -/
theorem renderPrompt_of_not_readable (hincludes : (tokenOf dep).toList <:+: node.body.toList) (h : ¬ Readable dep node.body)
    (reply : String) : renderPrompt workflow node userMessage (outputs.set dep reply) facts =
      renderPrompt workflow node userMessage outputs facts := by
  have hlines : replyLines node.body (outputs.set dep reply) = replyLines node.body outputs :=
    funext fun dep' => replyLines_set hincludes reply
  rw [renderPrompt, renderPrompt, substitute_of_not_readable h, hlines]

theorem infix_intercalate {l sep : List Char} : ∀ {ls : List (List Char)}, l ∈ ls → l <:+: sep.intercalate ls
  | [_], h => by
    rw [List.mem_singleton.mp h]
    exact ⟨[], [], by simp [List.intercalate]⟩
  | x :: y :: ls, h => by
    rw [List.intercalate_cons_cons]
    rcases List.mem_cons.mp h with rfl | h
    · exact ⟨[], sep ++ sep.intercalate (y :: ls), by simp⟩
    · exact (infix_intercalate h).trans (List.suffix_append _ _).isInfix

/-- A line of the prompt is in the prompt. -/
theorem infix_lines {line : String} {lines : List String} (h : line ∈ lines) :
    line.toList <:+: ("\n".intercalate lines).toList := by
  rw [String.toList_intercalate]
  exact infix_intercalate (List.mem_map_of_mem h)

/-- A reply that is appended, or whose token is read, is in the prompt. -/
theorem reply_infix (hdep : dep ∈ node.dependsOn) (hnode : dep ∈ workflow.nodes.map (·.id)) {reply : String}
    (hreply : outputs.get? dep = some reply) (htrim : jsTrim reply = reply) (hne : reply ≠ "")
    (h : ¬ (tokenOf dep).toList <:+: node.body.toList ∨ Readable dep node.body)
    (hprompt : renderPrompt workflow node userMessage outputs facts = .ok prompt) : reply.toList <:+: prompt.toList := by
  unfold renderPrompt at hprompt
  cases hbody : substitute node.body workflow node.id userMessage outputs with
  | error e =>
    rw [hbody] at hprompt
    cases hprompt
  | ok body =>
    rw [hbody] at hprompt
    obtain rfl := Except.ok.inj hprompt
    rcases h with h | ⟨hid, front, back, htext, hends⟩
    · refine infix_lines (List.mem_append_right _ (List.mem_flatMap.mpr ⟨dep, hdep, ?_⟩))
      rw [replyLines, if_neg h, hreply, Option.getD_some, htrim]
      simp [hne]
    · rw [htext, substitute_append hid hnode hreply _ hends] at hbody
      have hpart : reply.toList <:+: body.toList := by
        cases ha : substitute front workflow node.id userMessage outputs with
        | error e =>
          rw [ha] at hbody
          cases hbody
        | ok a =>
          cases hb : substitute back workflow node.id userMessage outputs with
          | error e =>
            rw [ha, hb] at hbody
            cases hbody
          | ok b =>
            rw [ha, hb] at hbody
            obtain rfl := Except.ok.inj hbody
            exact ⟨a.toList, b.toList, by simp only [String.toList_append]⟩
      exact hpart.trans (infix_lines (List.mem_append_left _ (List.mem_append_right _
        (List.mem_cons_of_mem _ (List.mem_cons_of_mem _ List.mem_cons_self)))))

end

/-! ### Workflows that are accepted -/

theorem parseNode_id {value : Json} {index : ℕ} {node : ArchonNode} (h : parseNode value index = .ok node) : node.id ≠ "" := by
  unfold parseNode at h
  split at h
  · cases h
  · next record hrecord =>
    split at h
    · cases h
    · next rawId hid =>
      have hne : jsTrim rawId ≠ "" := by
        have := (Option.filter_eq_some_iff.mp hid).2
        exact of_decide_eq_true this
      dsimp only at h
      split at h
      · simp only [bind, Except.bind] at h
        split at h
        · cases h
        · split at h
          · cases h
          · split at h
            · split at h
              · cases h
              · obtain rfl := Except.ok.inj h
                exact hne
            · split at h
              · cases h
              · obtain rfl := Except.ok.inj h
                exact hne
      · cases h

theorem parseNodes_id : ∀ {values : List Json} {index : ℕ} {nodes : List ArchonNode}, parseNodes index values = .ok nodes →
    ∀ node ∈ nodes, node.id ≠ ""
  | [], _, nodes, h => by
    obtain rfl := Except.ok.inj h
    exact fun node hnode => absurd hnode List.not_mem_nil
  | value :: values, index, nodes, h => by
    simp only [parseNodes, bind, Except.bind] at h
    split at h
    · cases h
    · next first hfirst =>
      split at h
      · cases h
      · next rest hrest =>
        obtain rfl := Except.ok.inj h
        exact List.forall_mem_cons.mpr ⟨parseNode_id hfirst, parseNodes_id hrest⟩

theorem duplicateId_eq_none : ∀ {ids seen : List String}, duplicateId seen ids = none → ids.Nodup ∧ ∀ id ∈ ids, id ∉ seen
  | [], _, _ => ⟨List.nodup_nil, fun _ h => absurd h List.not_mem_nil⟩
  | id :: ids, seen, h => by
    rw [duplicateId] at h
    split at h
    · cases h
    · next hid =>
      obtain ⟨hnodup, hseen⟩ := duplicateId_eq_none h
      refine ⟨List.nodup_cons.mpr ⟨fun hmem => hseen id hmem List.mem_cons_self, hnodup⟩, ?_⟩
      exact List.forall_mem_cons.mpr ⟨hid, fun x hx hin => hseen x hx (List.mem_cons_of_mem _ hin)⟩

/-- An accepted workflow has different ids that are not empty, dependencies among them, and an order. -/
theorem wellFormed_of_parse {yaml : String → Except String Json} {text : String} {sourcePath : Option String}
    {workflow : ArchonWorkflow} (h : parseArchonWorkflow yaml text sourcePath = .ok workflow) :
    WellFormed workflow.nodes ∧ ∃ ordered, orderNodes workflow.nodes = .ok ordered := by
  unfold parseArchonWorkflow at h
  split at h
  · cases h
  · split at h
    · cases h
    · split at h
      · cases h
      · split at h
        · cases h
        · cases h
        · simp only [bind, Except.bind] at h
          split at h
          · cases h
          · next nodes hnodes =>
            split at h
            · cases h
            · cases h
            · next hduplicate hunknown =>
              split at h
              · cases h
              · next ordered hordered =>
                obtain rfl := Except.ok.inj h
                refine ⟨⟨(duplicateId_eq_none hduplicate).1, parseNodes_id hnodes, ?_⟩, ordered, hordered⟩
                intro node hnode dep hdep
                have hpair := List.find?_eq_none.mp hunknown (node.id, dep)
                  (List.mem_flatMap.mpr ⟨node, hnode, List.mem_map_of_mem hdep⟩)
                simpa using hpair
        · cases h

/-! ### The calls of a run -/

/-- A node has run, and its reply is there. -/
def HasReply (outputs : OrdMap String String) (id : String) : Prop :=
  ∃ reply, outputs.get? id = some reply ∧ jsTrim reply = reply

theorem jsTrim_jsTrim (s : String) : jsTrim (jsTrim s) = jsTrim s := by
  show String.ofList (trimChars (String.ofList (trimChars s.toList)).toList) = String.ofList (trimChars s.toList)
  rw [String.toList_ofList, trimChars_trimChars]

theorem map_jsTrim {x : Except String String} {output : String} (h : x.map jsTrim = .ok output) : jsTrim output = output := by
  cases x with
  | error e => cases h
  | ok s =>
    obtain rfl := Except.ok.inj h
    exact jsTrim_jsTrim s

section

variable {workflow : ArchonWorkflow} {options : RunArchonOptions}

/-- A call is made with the prompt of its node, and an output has no white space around it. -/
theorem callNode_spec (node : ArchonNode) (outputs : OrdMap String String) :
    (∀ call ∈ (callNode workflow node options outputs).1, call.node = node ∧ call.outputs = outputs ∧
      renderPrompt workflow node (options.userMessage.getD "") outputs (options.facts.getD []) = .ok call.prompt) ∧
    ∀ output, (callNode workflow node options outputs).2 = .ok output → jsTrim output = output := by
  unfold callNode
  split
  · split
    · exact ⟨by simp, by simp⟩
    · split
      · exact ⟨by simp, by simp⟩
      · next prompt hprompt =>
        refine ⟨fun call hcall => ?_, fun output houtput => map_jsTrim houtput⟩
        obtain rfl := List.mem_singleton.mp hcall
        exact ⟨rfl, rfl, hprompt⟩
  · split
    · exact ⟨by simp, by simp⟩
    · split
      · exact ⟨by simp, by simp⟩
      · exact ⟨by simp, fun output houtput => map_jsTrim houtput⟩
  · exact ⟨by simp, by simp⟩
  · exact ⟨by simp, by simp⟩
  · exact ⟨by simp, by simp⟩

/-- The model is called in the order of the nodes, with the replies of all nodes before. -/
theorem mem_runNodes : ∀ {nodes : List ArchonNode} {outputs : OrdMap String String} {call : PromptCall},
    call ∈ (runNodes workflow options nodes outputs).1 → ∃ done rest, nodes = done ++ call.node :: rest ∧
      renderPrompt workflow call.node (options.userMessage.getD "") call.outputs (options.facts.getD []) = .ok call.prompt ∧
      ∀ id, id ∈ done.map (·.id) ∨ HasReply outputs id → HasReply call.outputs id
  | [], _, _, h => absurd h List.not_mem_nil
  | node :: nodes, outputs, call, h => by
    obtain ⟨hcalls, houtput⟩ := @callNode_spec workflow options node outputs
    have hfirst : call ∈ (callNode workflow node options outputs).1 → ∃ done rest, node :: nodes = done ++ call.node :: rest ∧
        renderPrompt workflow call.node (options.userMessage.getD "") call.outputs (options.facts.getD []) = .ok call.prompt ∧
        ∀ id, id ∈ done.map (·.id) ∨ HasReply outputs id → HasReply call.outputs id := by
      intro hcall
      obtain ⟨rfl, rfl, hprompt⟩ := hcalls call hcall
      exact ⟨[], nodes, rfl, hprompt, fun id hid => hid.resolve_left List.not_mem_nil⟩
    rw [runNodes] at h
    cases hrun : callNode workflow node options outputs with
    | mk calls result =>
      rw [hrun] at h hfirst houtput
      cases result with
      | error e => exact hfirst h
      | ok output =>
        rcases List.mem_append.mp h with h | h
        · exact hfirst h
        · obtain ⟨done, rest, heq, hprompt, hids⟩ := mem_runNodes h
          refine ⟨node :: done, rest, by rw [heq, List.cons_append], hprompt, fun id hid => hids id ?_⟩
          by_cases hnode : id = node.id
          · exact .inr ⟨output, by rw [hnode, OrdMap.get?_set_self], houtput output rfl⟩
          · rcases hid with hid | ⟨reply, hreply, htrim⟩
            · rcases List.mem_cons.mp hid with hid | hid
              · exact absurd hid hnode
              · exact .inl hid
            · exact .inr ⟨reply, by rw [OrdMap.get?_set_ne _ _ hnode, hreply], htrim⟩

/-- What a run of nodes that ends well has called the model for, and its results. -/
structure Ran (nodes : List ArchonNode) (calls : List PromptCall) (results : List (String × String)) : Prop where
  ids : results.map Prod.fst = nodes.map (·.id)
  called : calls.map (·.node) = nodes.filter (·.kind = .prompt)
  kinds : ∀ node ∈ nodes, node.kind = .prompt ∨ node.kind = .bash

theorem callNode_called (node : ArchonNode) (outputs : OrdMap String String) :
    ((callNode workflow node options outputs).1 = [] ∧ ∃ e, (callNode workflow node options outputs).2 = .error e) ∨
      (callNode workflow node options outputs).1.map (·.node) = [node].filter (·.kind = .prompt) ∧
        (node.kind = .prompt ∨ node.kind = .bash) := by
  unfold callNode
  split
  · next hkind =>
    split
    · exact .inl ⟨rfl, _, rfl⟩
    · split
      · exact .inl ⟨rfl, _, rfl⟩
      · exact .inr ⟨by simp [hkind], .inl hkind⟩
  · next hkind =>
    split
    · exact .inl ⟨rfl, _, rfl⟩
    · split
      · exact .inl ⟨rfl, _, rfl⟩
      · exact .inr ⟨by simp [hkind], .inr hkind⟩
  all_goals exact .inl ⟨rfl, _, rfl⟩

/-- A run that fails has called the model for the first of the prompt nodes. -/
theorem runNodes_ran : ∀ (nodes : List ArchonNode) (outputs : OrdMap String String),
    (runNodes workflow options nodes outputs).1.map (·.node) <+: nodes.filter (·.kind = .prompt) ∧
      ∀ results, (runNodes workflow options nodes outputs).2 = .ok results →
        Ran nodes (runNodes workflow options nodes outputs).1 results
  | [], _ => ⟨List.nil_prefix, fun _ h => Except.ok.inj h ▸ ⟨rfl, rfl, nofun⟩⟩
  | node :: nodes, outputs => by
    have hnode := @callNode_called workflow options node outputs
    have hsplit : (node :: nodes).filter (·.kind = .prompt) =
        [node].filter (·.kind = .prompt) ++ nodes.filter (·.kind = .prompt) := List.filter_append [node] nodes
    rw [runNodes, hsplit]
    cases hcall : callNode workflow node options outputs with
    | mk calls result =>
      rw [hcall] at hnode
      rcases hnode with ⟨rfl, e, rfl⟩ | ⟨hfirst, hkind⟩
      · exact ⟨List.nil_prefix, nofun⟩
      · cases result with
        | error e => exact ⟨hfirst ▸ List.prefix_append _ _, nofun⟩
        | ok output =>
          obtain ⟨hrest, hran⟩ := runNodes_ran nodes (outputs.set node.id output)
          dsimp only at hfirst ⊢
          rw [List.map_append, hfirst]
          refine ⟨(List.prefix_append_right_inj _).mpr hrest, fun results h => ?_⟩
          cases hok : (runNodes workflow options nodes (outputs.set node.id output)).2 with
          | error e => cases hok ▸ h
          | ok rest =>
            obtain rfl := Except.ok.inj (hok ▸ h)
            have hran := hran rest hok
            exact ⟨congrArg (node.id :: ·) hran.ids, by rw [List.map_append, hfirst, hran.called, hsplit],
              List.forall_mem_cons.mpr ⟨hkind, hran.kinds⟩⟩

end

/-! ### Which replies arrive -/

section

variable {workflow : ArchonWorkflow} {nodeId userMessage : String} {outputs : OrdMap String String}

/-- The tokens of a node that has run are replaced, whatever its reply is, if `TOKEN` reads its id, and never else. -/
theorem substitute_tokens_iff {id body result : String} (hnode : id ∈ workflow.nodes.map (·.id))
    (hresult : substitute body workflow nodeId userMessage outputs = .ok result) :
    (∀ front back, body = front ++ tokenOf id ++ back → WordEnds back.toList → ∀ reply,
      substitute body workflow nodeId userMessage (outputs.set id reply) = (do
        let a ← substitute front workflow nodeId userMessage (outputs.set id reply)
        let b ← substitute back workflow nodeId userMessage (outputs.set id reply)
        .ok (a ++ reply ++ b))) ↔ (TokenIn id body → IsTokenId id) := by
  constructor
  · rintro h ⟨front, back, hbody, hends⟩
    by_contra hid
    have hunread : ∀ text, ¬ Readable id text := fun text hread => hid hread.1
    -- neither side sees the reply, but the right one has it
    have hsides : ∀ reply, ∃ a b, result = a ++ reply ++ b ∧ substitute front workflow nodeId userMessage outputs = .ok a ∧
        substitute back workflow nodeId userMessage outputs = .ok b := by
      intro reply
      have := h front back hbody hends reply
      rw [substitute_of_not_readable (hunread _), substitute_of_not_readable (hunread _),
        substitute_of_not_readable (hunread _), hresult] at this
      cases ha : substitute front workflow nodeId userMessage outputs with
      | error e => rw [ha] at this; cases this
      | ok a =>
        cases hb : substitute back workflow nodeId userMessage outputs with
        | error e => rw [ha, hb] at this; cases this
        | ok b =>
          rw [ha, hb] at this
          exact ⟨a, b, Except.ok.inj this, rfl, rfl⟩
    obtain ⟨a, b, hempty, ha, hb⟩ := hsides ""
    obtain ⟨a', b', hletter, ha', hb'⟩ := hsides "x"
    obtain rfl : a = a' := Except.ok.inj (ha.symm.trans ha')
    obtain rfl : b = b' := Except.ok.inj (hb.symm.trans hb')
    have hlength := congrArg (fun s : String => s.toList.length) (hempty.symm.trans hletter)
    simp only [String.toList_append, List.length_append] at hlength
    have hx : "x".toList.length = 1 := rfl
    have hnil : "".toList.length = 0 := rfl
    omega
  · intro h front back hbody hends reply
    have hid := h ⟨front, back, hbody, hends⟩
    conv_lhs => rw [hbody]
    exact substitute_append hid hnode (OrdMap.get?_set_self _ _ _) front hends

variable {node : ArchonNode} {facts : List (String × String)} {prompt dep : String}

/-- A dependency whose reply is in the prompt, whatever it is. -/
theorem reply_iff (hdep : dep ∈ node.dependsOn) (hnode : dep ∈ workflow.nodes.map (·.id))
    (hprompt : renderPrompt workflow node userMessage outputs facts = .ok prompt) :
    (∀ reply prompt, jsTrim reply = reply → reply ≠ "" →
      renderPrompt workflow node userMessage (outputs.set dep reply) facts = .ok prompt → reply.toList <:+: prompt.toList) ↔
      (¬ (tokenOf dep).toList <:+: node.body.toList ∨ Readable dep node.body) := by
  constructor
  · intro h
    by_contra hlost
    rw [not_or, not_not] at hlost
    -- the prompt has no room for a reply that is longer than it
    let reply := String.ofList (List.replicate (prompt.toList.length + 1) 'x')
    have hlist : reply.toList = List.replicate (prompt.toList.length + 1) 'x' := String.toList_ofList
    have htrim : jsTrim reply = reply := by
      have hx : ∀ n, (List.replicate (n + 1) 'x').dropWhile isJsSpace = List.replicate (n + 1) 'x' := fun n => rfl
      rw [jsTrim, hlist, hx, List.reverse_replicate, hx, List.reverse_replicate]
    have hne : reply ≠ "" := by
      intro h0
      have := congrArg (fun s : String => s.toList.length) h0
      simp only [hlist, List.length_replicate] at this
      cases this
    have hin := h reply prompt htrim hne ((renderPrompt_of_not_readable hlost.1 hlost.2 reply).trans hprompt)
    have hle := hin.length_le
    rw [hlist, List.length_replicate] at hle
    omega
  · intro h reply prompt htrim hne hprompt
    exact reply_infix hdep hnode (OrdMap.get?_set_self _ _ _) htrim hne h hprompt

end

/-- **Dependency replies reach the node.** In every call of the model in a run of an accepted workflow all dependencies
have replied. The tokens of a node that has run are replaced, each where it stands, exactly when `TOKEN` reads its id. And
the reply of a dependency is in the prompt, whatever it is, exactly when the body does not have the text of its token, or
has it where `TOKEN` reads it. -/
theorem replies_reach_iff {yaml : String → Except String Json} {text : String} {sourcePath : Option String}
    {workflow : ArchonWorkflow} (h : parseArchonWorkflow yaml text sourcePath = .ok workflow) (options : RunArchonOptions) :
    ∀ call ∈ (runArchonWorkflow workflow options).1,
      (∀ dep ∈ call.node.dependsOn, HasReply call.outputs dep) ∧
      (∀ id, HasReply call.outputs id → id ∈ workflow.nodes.map (·.id) →
        ((∀ front back, call.node.body = front ++ tokenOf id ++ back → WordEnds back.toList → ∀ reply,
          substitute call.node.body workflow call.node.id (options.userMessage.getD "") (call.outputs.set id reply) = (do
            let a ← substitute front workflow call.node.id (options.userMessage.getD "") (call.outputs.set id reply)
            let b ← substitute back workflow call.node.id (options.userMessage.getD "") (call.outputs.set id reply)
            .ok (a ++ reply ++ b))) ↔ (TokenIn id call.node.body → IsTokenId id))) ∧
      (∀ dep ∈ call.node.dependsOn,
        ((∀ reply prompt, jsTrim reply = reply → reply ≠ "" → renderPrompt workflow call.node (options.userMessage.getD "")
            (call.outputs.set dep reply) (options.facts.getD []) = .ok prompt → reply.toList <:+: prompt.toList) ↔
          (¬ (tokenOf dep).toList <:+: call.node.body.toList ∨ Readable dep call.node.body))) ∧
      ∀ dep ∈ call.node.dependsOn, (¬ (tokenOf dep).toList <:+: call.node.body.toList ∨ Readable dep call.node.body) →
        ∀ reply, call.outputs.get? dep = some reply → reply ≠ "" → reply.toList <:+: call.prompt.toList := by
  intro call hcall
  obtain ⟨hwell, ordered, hordered⟩ := wellFormed_of_parse h
  rw [runArchonWorkflow, hordered] at hcall
  obtain ⟨done, rest, hsplit, hprompt, hids⟩ := mem_runNodes hcall
  have htopo := isTopoOrder_of_orderNodes hwell hordered
  have hmem : call.node ∈ workflow.nodes := htopo.perm.mem_iff.mp (hsplit ▸ List.mem_append_right _ List.mem_cons_self)
  have hreplies : ∀ dep ∈ call.node.dependsOn, HasReply call.outputs dep := by
    intro dep hdep
    obtain ⟨b, hb, rfl⟩ := List.mem_map.mp (hwell.known call.node hmem dep hdep)
    have hdone := htopo.first done call.node rest hsplit b hb ⟨hmem, hb, hdep⟩
    exact hids b.id (.inl (List.mem_map_of_mem hdone))
  refine ⟨hreplies, ?_, ?_, ?_⟩
  · intro id _ hnode
    cases hbody : substitute call.node.body workflow call.node.id (options.userMessage.getD "") call.outputs with
    | error e =>
      rw [renderPrompt, hbody] at hprompt
      cases hprompt
    | ok result => exact substitute_tokens_iff hnode hbody
  · exact fun dep hdep => reply_iff hdep (hwell.known call.node hmem dep hdep) hprompt
  · intro dep hdep hread reply hreply hne
    obtain ⟨reply', hreply', htrim⟩ := hreplies dep hdep
    obtain rfl : reply = reply' := Option.some.inj (hreply.symm.trans hreply')
    exact reply_infix hdep (hwell.known call.node hmem dep hdep) hreply htrim hne hread hprompt

/-- A file whose second node has a body and depends on the first. -/
def colourFile (body : String) : Json :=
  .obj [("name", .str "colours"), ("description", .str "two steps"), ("nodes", .arr [
    .obj [("id", .str "a"), ("prompt", .str "Name one.")],
    .obj [("id", .str "b"), ("prompt", .str body), ("depends_on", .arr [.str "a"])]])]

/-- What the file says. -/
def colours (body : String) : ArchonWorkflow :=
  ⟨"colours", "two steps", [⟨"a", .prompt, "Name one.", [], none, none⟩, ⟨"b", .prompt, body, ["a"], none, none⟩]⟩

/-- A model that always gives the same answer. -/
def answers (reply : String) : RunArchonOptions := ⟨none, none, some fun _ _ => .ok reply, fun _ => .error "no shell"⟩

theorem replies_reach_colours : ∃ call ∈ (runArchonWorkflow (colours "Say $a.output.") (answers "mauve")).1,
    "a" ∈ call.node.dependsOn ∧ HasReply call.outputs "a" := by
  obtain ⟨call, hcall, hdep⟩ : ∃ call ∈ (runArchonWorkflow (colours "Say $a.output.") (answers "mauve")).1,
      "a" ∈ call.node.dependsOn := by decide +kernel
  exact ⟨call, hcall, hdep, (@replies_reach_iff (fun _ => .ok (colourFile "Say $a.output.")) "" none
    (colours "Say $a.output.") (by decide +kernel) (answers "mauve") call hcall).1 "a" hdep⟩

/-- **A workflow runs in order.** The model is called for prompt nodes only, in a topological order of the nodes and for
none twice. A run that ends well has called it for all of them, has one result for every node, and has run no node but
prompts and bash. -/
theorem run_in_order {yaml : String → Except String Json} {text : String} {sourcePath : Option String}
    {workflow : ArchonWorkflow} (h : parseArchonWorkflow yaml text sourcePath = .ok workflow) (options : RunArchonOptions) :
    ∃ ordered, IsTopoOrder (DependsOn workflow.nodes) workflow.nodes ordered ∧
      (runArchonWorkflow workflow options).1.map (·.node) <+: ordered.filter (·.kind = .prompt) ∧
      ∀ results, (runArchonWorkflow workflow options).2 = .ok results →
        Ran ordered (runArchonWorkflow workflow options).1 results := by
  obtain ⟨hwell, ordered, hordered⟩ := wellFormed_of_parse h
  rw [runArchonWorkflow, hordered]
  exact ⟨ordered, isTopoOrder_of_orderNodes hwell hordered, runNodes_ran ordered .empty⟩

theorem run_in_order_colours : ∃ ordered, Ran ordered (runArchonWorkflow (colours "Go.") (answers "mauve")).1
    [("a", "mauve"), ("b", "mauve")] := by
  obtain ⟨ordered, -, -, hran⟩ := @run_in_order (fun _ => .ok (colourFile "Go.")) "" none (colours "Go.") (by decide +kernel)
    (answers "mauve")
  exact ⟨ordered, hran _ (by decide +kernel)⟩

/-- The reply is in the prompt in neither way: the body has the text of the token, in a longer word. -/
theorem reply_lost : parseArchonWorkflow (fun _ => .ok (colourFile "List the $a.outputs.")) "" none =
      .ok (colours "List the $a.outputs.") ∧
    ∃ call ∈ (runArchonWorkflow (colours "List the $a.outputs.") (answers "mauve")).1,
      "a" ∈ call.node.dependsOn ∧ call.outputs.get? "a" = some "mauve" ∧ ¬ "mauve".toList <:+: call.prompt.toList := by
  let lines := ["Answer only this Archon node.", "One line. No preamble.",
    "Do not call a tool. The earlier node replies are below.",
    "If a fact is not in the user turn, the known facts, or an earlier reply, say it is not in the turn.", "", "User turn:", "", "",
    "Node b:", "List the $a.outputs."]
  obtain ⟨call, hcall, hdep, hreply, hprompt⟩ : ∃ call ∈ (runArchonWorkflow (colours "List the $a.outputs.") (answers "mauve")).1,
      "a" ∈ call.node.dependsOn ∧ call.outputs.get? "a" = some "mauve" ∧ call.prompt = "\n".intercalate lines := by
    decide +kernel
  refine ⟨by decide +kernel, call, hcall, hdep, hreply, ?_⟩
  rw [hprompt, String.toList_intercalate]
  decide +kernel

end Trek.Domains
