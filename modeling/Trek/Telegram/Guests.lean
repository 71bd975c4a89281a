/-
# Guests beside the owner

With safe mode on a guest of the telegram channel is kept apart from the owner: what a guest writes
reaches an agent only if the screen allows it, destructive operations are confirmed by an owner alone,
and the sessions of two guests and those of a guest and an owner are others. The last fails for a
message without a sender. It is a guest's, but has the session key of its chat, which is the owner's
key there; and it can stop or reset that session unscreened. Exactly where such a message and one of
an owner reach the host from one chat and thread the two share a session (`run_separated_iff`).
-/
import Std.Data.String.ToInt
import Trek.Telegram.Runtime

namespace Trek.Telegram

/-! ### Session keys -/

theorem mem_toString_int {i : ℤ} {c : Char} (hc : c ∈ (toString i).toList) : c = '-' ∨ c.isDigit = true := by
  have hnat : ∀ n : ℕ, c ∈ n.repr.toList → c.isDigit = true := fun n hn => by
    rw [Nat.toList_repr] at hn
    exact Nat.isDigit_of_mem_toDigits (by decide) (by decide) hn
  rw [Int.toString_eq_repr, Int.repr_eq_if] at hc
  split at hc
  · exact Or.inr (hnat _ hc)
  · rw [String.toList_append, List.mem_append] at hc
    rcases hc with hc | hc
    · exact Or.inl (List.mem_singleton.mp hc)
    · exact Or.inr (hnat _ hc)

theorem not_mem_toString_int {i : ℤ} {c : Char} (hdash : c ≠ '-') (hdigit : c.isDigit = false) : c ∉ (toString i).toList := by
  intro hc
  rcases mem_toString_int hc with h | h
  · exact hdash h
  · rw [hdigit] at h
    cases h

theorem toString_int_inj {i j : ℤ} (h : toString i = toString j) : i = j := by
  rw [Int.toString_eq_repr, Int.toString_eq_repr] at h
  exact Int.repr_injective h

/-- The kind of a chat in a key. -/
def keyPrefix (chatType : String) : String := if isGroupChat chatType then "grp" else "dm"

theorem keyPrefix_toList (chatType : String) :
    (keyPrefix chatType).toList = if isGroupChat chatType then ['g', 'r', 'p'] else ['d', 'm'] := by
  unfold keyPrefix
  split <;> rfl

/-- The thread in a key. -/
def threadSuffix : Option ℤ → List Char
  | some thread => '-' :: 't' :: (toString thread).toList
  | none => []

/-- The characters of a key: the kind, the chat, and the thread behind a `t`. -/
theorem sessionKey_toList (chatId : ℤ) (threadId : Option ℤ) (chatType : String) :
    (sessionKey chatId threadId chatType).toList =
      (keyPrefix chatType).toList ++ '-' :: ((toString chatId).toList ++ threadSuffix threadId) := by
  have hchat : (keyPrefix chatType ++ "-" ++ toString chatId).toList =
      (keyPrefix chatType).toList ++ '-' :: (toString chatId).toList := by
    rw [String.toList_append, String.toList_append, List.append_assoc]
    rfl
  cases threadId with
  | none =>
    show (keyPrefix chatType ++ "-" ++ toString chatId).toList = _
    rw [hchat, threadSuffix, List.append_nil]
  | some thread =>
    show (keyPrefix chatType ++ "-" ++ toString chatId ++ "-t" ++ toString thread).toList = _
    rw [String.toList_append, String.toList_append, hchat, List.append_assoc, List.append_assoc]
    rfl

theorem not_mem_sessionKey (chatId : ℤ) (threadId : Option ℤ) (chatType : String) :
    's' ∉ (sessionKey chatId threadId chatType).toList := by
  have hint : ∀ i : ℤ, 's' ∉ (toString i).toList := fun i => not_mem_toString_int (by decide) (by decide)
  have hsuffix : 's' ∉ threadSuffix threadId := by
    cases threadId with
    | none => exact List.not_mem_nil
    | some thread =>
      intro h
      rcases List.mem_cons.mp h with h | h
      · cases h
      · exact (List.mem_cons.mp h).elim (by decide) (hint thread)
  have hprefix : 's' ∉ (keyPrefix chatType).toList := by
    rw [keyPrefix_toList]
    split <;> decide
  rw [sessionKey_toList]
  intro h
  rcases List.mem_append.mp h with h | h
  · exact hprefix h
  · rcases List.mem_cons.mp h with h | h
    · cases h
    · exact (List.mem_append.mp h).elim (hint chatId) hsuffix

/-- Chat and thread can be read off the rest of a key. -/
theorem chatSuffix_inj {chatId chatId' : ℤ} {threadId threadId' : Option ℤ}
    (h : (toString chatId).toList ++ threadSuffix threadId = (toString chatId').toList ++ threadSuffix threadId') :
    chatId = chatId' ∧ threadId = threadId' := by
  have hint : ∀ i : ℤ, 't' ∉ (toString i).toList := fun i => not_mem_toString_int (by decide) (by decide)
  have hmem : ∀ (i thread : ℤ), 't' ∈ (toString i).toList ++ threadSuffix (some thread) := fun i thread =>
    List.mem_append_right _ (List.mem_cons_of_mem _ List.mem_cons_self)
  cases threadId with
  | none =>
    cases threadId' with
    | none =>
      have hchat : (toString chatId).toList = (toString chatId').toList := by simpa only [threadSuffix, List.append_nil] using h
      exact ⟨toString_int_inj (String.toList_inj.mp hchat), rfl⟩
    | some thread' =>
      have ht := hmem chatId' thread'
      rw [← h, threadSuffix, List.append_nil] at ht
      exact absurd ht (hint chatId)
  | some thread =>
    cases threadId' with
    | none =>
      have ht := hmem chatId thread
      rw [h, threadSuffix, List.append_nil] at ht
      exact absurd ht (hint chatId')
    | some thread' =>
      rw [threadSuffix, threadSuffix, List.append_cons, List.append_cons (toString chatId').toList] at h
      obtain ⟨hchat, hthread⟩ := append_separator_inj (hint thread) (hint thread') h
      exact ⟨toString_int_inj (String.toList_inj.mp (List.append_left_injective _ hchat)),
        congrArg some (toString_int_inj (String.toList_inj.mp hthread))⟩

/-- Two messages have the same session key only if they are of one chat, one thread and one kind of chat. -/
theorem sessionKey_inj {chatId chatId' : ℤ} {threadId threadId' : Option ℤ} {chatType chatType' : String}
    (h : sessionKey chatId threadId chatType = sessionKey chatId' threadId' chatType') :
    chatId = chatId' ∧ threadId = threadId' ∧ isGroupChat chatType = isGroupChat chatType' := by
  replace h := congrArg String.toList h
  rw [sessionKey_toList, sessionKey_toList, keyPrefix_toList, keyPrefix_toList] at h
  -- the kind is told by the first character
  have hkind : isGroupChat chatType = isGroupChat chatType' := by
    have hhead := congrArg List.head? h
    cases hc : isGroupChat chatType <;> cases hc' : isGroupChat chatType' <;> simp [hc, hc'] at hhead ⊢
  rw [hkind] at h
  obtain ⟨hchat, hthread⟩ := chatSuffix_inj (List.cons.inj (List.append_cancel_left h)).2
  exact ⟨hchat, hthread, hkind⟩

/-- The key of a guest with an id. -/
theorem guestKey_toList (base : String) (user : ℤ) :
    (base ++ "-guest-" ++ toString user).toList = (base.toList ++ "-gues".toList) ++ 't' :: '-' :: (toString user).toList := by
  rw [String.toList_append, String.toList_append, List.append_assoc, List.append_assoc]
  rfl

theorem guestKey_inj {base base' : String} {user user' : ℤ}
    (h : base ++ "-guest-" ++ toString user = base' ++ "-guest-" ++ toString user') : user = user' := by
  have hint : ∀ i : ℤ, 't' ∉ '-' :: (toString i).toList := fun i hm =>
    (List.mem_cons.mp hm).elim (by decide) (not_mem_toString_int (by decide) (by decide))
  replace h := congrArg String.toList h
  rw [guestKey_toList, guestKey_toList] at h
  have hrest := (append_separator_inj (hint user) (hint user') h).2
  exact toString_int_inj (String.toList_inj.mp (List.cons.inj hrest).2)

theorem guestKey_ne_sessionKey (base : String) (user chatId : ℤ) (threadId : Option ℤ) (chatType : String) :
    base ++ "-guest-" ++ toString user ≠ sessionKey chatId threadId chatType := by
  intro h
  have hs : 's' ∈ (base ++ "-guest-" ++ toString user).toList := by
    rw [guestKey_toList]
    exact List.mem_append_left _ (List.mem_append_right _ (by decide))
  rw [h] at hs
  exact not_mem_sessionKey _ _ _ hs

/-! ### The call an update makes -/

section

variable (config : TelegramConfig) (rules : Rules)

/-- The session key of a message. -/
def keyOf (message : TelegramMessage) : String :=
  turnKey message.chatId message.messageThreadId message.chatType message.sender (telegramActor config message.sender)

/-- A message is let in. -/
def isLetIn (message : TelegramMessage) : Bool :=
  (messageText message ≠ "" || hasMedia message) && isAddressed config message (messageText message) &&
    isAllowedTelegramSender config message.sender message.chatId && !isUnsupportedMedia message

/-- A message that is no command is let through to the agent: it is the owner's or the screen allows it,
its files can be downloaded, and there is something in it. -/
def isPrompt (message : TelegramMessage) (downloads : Bool) : Bool :=
  (telegramActor config message.sender = .owner || (screenGuestInput rules (screenedText config message)).verdict = .allow) &&
    (!hasMedia message || downloads) && (turnPrompt config message ≠ "" || hasMedia message)

/-- A message reaches the host. -/
def reachesHost (message : TelegramMessage) (downloads : Bool) : Bool :=
  isLetIn config message &&
    let command := commandName (messageText message)
    if command = "/start" ∨ command = "/help" then false
    else if command = "/new" ∨ command = "/status" ∨ command = "/stop" then true
    else if command = "/confirm" then telegramActor config message.sender = .owner
    else isPrompt config rules message downloads

/-- What a message that reaches the host calls. -/
def callOf (message : TelegramMessage) : HostCall :=
  let key := keyOf config message
  let command := commandName (messageText message)
  if command = "/new" then .reset key
  else if command = "/status" then .status key
  else if command = "/stop" then .halt key
  else if command = "/confirm" then .confirm key
  else
    .prompt key (turnPrompt config message) (if hasMedia message then stageAttachments config message else [])
      (telegramActor config message.sender)

variable {config rules} {message : TelegramMessage} {downloads : Bool}

theorem stageAttachments_ne_nil (h : hasMedia message = true) : stageAttachments config message ≠ [] := by
  unfold hasMedia at h
  unfold stageAttachments
  dsimp only
  rcases Bool.or_eq_true_iff.mp h with h | h
  · obtain ⟨photo, hp⟩ := Option.isSome_iff_exists.mp h
    rw [hp]
    simp
  · obtain ⟨document, hd⟩ := Option.isSome_iff_exists.mp h
    rw [hd]
    simp

/-- A message with files that cannot be downloaded or with nothing in it calls no one, any other one
prompts the session. -/
theorem hostCalls_promptHost (r : TelegramRuntime) (key : String) (actor : Actor) :
    hostCalls (r.promptHost config message key actor downloads).2 =
      if (!hasMedia message || downloads) && (turnPrompt config message ≠ "" || hasMedia message) then
        [.prompt key (turnPrompt config message) (if hasMedia message then stageAttachments config message else []) actor]
      else [] := by
  unfold TelegramRuntime.promptHost
  cases hm : hasMedia message with
  | false =>
    simp only [Bool.false_and, Bool.false_eq_true, if_false, Bool.not_false, Bool.true_or, Bool.true_and, Bool.or_false,
      and_true, decide_eq_true_eq]
    split
    · rename_i h
      rw [if_neg (fun hne => hne h)]
      rfl
    · rfl
  | true =>
    have hne : stageAttachments config message ≠ [] := stageAttachments_ne_nil hm
    cases downloads with
    | false => rfl
    | true =>
      simp only [Bool.not_true, Bool.and_false, Bool.false_eq_true, if_false, if_true, hne, and_false, Bool.or_true,
        Bool.and_true]
      rfl

theorem hostCalls_notifyOwner (r : TelegramRuntime) (chatId : ℤ) (userId : Option ℤ) (classes : List DangerClass)
    (excerpt : String) : hostCalls (r.notifyOwner config chatId userId classes excerpt).2 = [] := by
  unfold TelegramRuntime.notifyOwner
  split
  · rfl
  · refine List.filterMap_eq_nil_iff.mpr fun effect hmem => ?_
    obtain ⟨owner, -, rfl⟩ := List.mem_map.mp hmem
    rfl

theorem hostCalls_converse (r : TelegramRuntime) (key : String) :
    hostCalls (r.converse config rules message key (telegramActor config message.sender) downloads).2 =
      if isPrompt config rules message downloads then
        [.prompt key (turnPrompt config message) (if hasMedia message then stageAttachments config message else [])
          (telegramActor config message.sender)]
      else [] := by
  unfold TelegramRuntime.converse isPrompt
  cases hactor : telegramActor config message.sender with
  | owner =>
    dsimp only
    rw [hostCalls_promptHost]
    rfl
  | guest =>
    dsimp only
    cases hverdict : (screenGuestInput rules (screenedText config message)).verdict with
    | refuse =>
      rw [if_pos rfl]
      exact hostCalls_notifyOwner _ _ _ _ _
    | allow =>
      rw [if_neg (by decide), hostCalls_promptHost]
      rfl

theorem hostCalls_turn (r : TelegramRuntime) (hlet : isLetIn config message = true) :
    hostCalls (r.turn config rules message downloads).2 =
      if reachesHost config rules message downloads then [callOf config message] else [] := by
  unfold TelegramRuntime.turn reachesHost callOf keyOf
  rw [hlet, Bool.true_and]
  dsimp only
  generalize commandName (messageText message) = command
  by_cases hhelp : command = "/start" ∨ command = "/help"
  · rw [if_pos hhelp, if_pos hhelp]
    rfl
  · rw [if_neg hhelp, if_neg hhelp]
    by_cases hnew : command = "/new"
    · subst hnew
      rfl
    · by_cases hstatus : command = "/status"
      · subst hstatus
        rfl
      · by_cases hstop : command = "/stop"
        · subst hstop
          rfl
        · by_cases hconfirm : command = "/confirm"
          · subst hconfirm
            cases hactor : telegramActor config message.sender with
            | guest => rfl
            | owner => rfl
          · simp only [hnew, hstatus, hstop, hconfirm, if_false, or_self, hostCalls_converse]

/-- The call of the host that an update makes does not depend on the updates before it. -/
theorem hostCalls_handleUpdate (r : TelegramRuntime) (update : TelegramUpdate) :
    hostCalls (r.handleUpdate config rules update downloads).2 =
      match update.message with
      | some message => if reachesHost config rules message downloads then [callOf config message] else []
      | none => [] := by
  unfold TelegramRuntime.handleUpdate
  cases hmessage : update.message with
  | none => rfl
  | some message =>
    dsimp only
    cases hlet : isLetIn config message with
    | true =>
      have h := hlet
      simp only [isLetIn, Bool.and_eq_true, Bool.or_eq_true, decide_eq_true_eq, Bool.not_eq_true'] at h
      obtain ⟨⟨⟨hsome, haddressed⟩, hallowed⟩, hmedia⟩ := h
      rw [if_neg (by rintro ⟨htext, hno, -⟩; rcases hsome with h | h <;> simp_all), if_neg (by simp [haddressed]),
        if_neg (by simp [hallowed]), if_neg (by simp [hmedia]), hostCalls_turn _ hlet]
    | false =>
      have hno : reachesHost config rules message downloads = false := by rw [reachesHost, hlet, Bool.false_and]
      rw [hno]
      split
      · rfl
      · split
        · rfl
        · split
          · rfl
          · split
            · rfl
            · simp_all [isLetIn]

/-! ### A run -/

/-- What an update adds to the log of a run. -/
def updateLog (config : TelegramConfig) (rules : Rules) (u : TelegramUpdate × Bool) : List (TelegramMessage × HostCall) :=
  match u.1.message with
  | some message => if reachesHost config rules message u.2 then [(message, callOf config message)] else []
  | none => []

theorem run_cons (r : TelegramRuntime) (update : TelegramUpdate) (updates : List (TelegramUpdate × Bool)) :
    (r.run config rules ((update, downloads) :: updates)).2 =
      (update.message.toList.flatMap fun message =>
        (hostCalls (r.handleUpdate config rules update downloads).2).map (message, ·)) ++
        ((r.handleUpdate config rules update downloads).1.run config rules updates).2 := rfl

theorem run_log : ∀ (updates : List (TelegramUpdate × Bool)) (r : TelegramRuntime),
    (r.run config rules updates).2 = updates.flatMap (updateLog config rules)
  | [], _ => rfl
  | (update, downloads) :: updates, r => by
    rw [run_cons, run_log updates, List.flatMap_cons, hostCalls_handleUpdate, updateLog]
    cases update.message with
    | none => rfl
    | some message =>
      dsimp only
      split
      · rfl
      · rfl

/-- A message made a call in a run if it is among its updates and reaches the host. -/
theorem mem_run {call : HostCall} {updates : List (TelegramUpdate × Bool)} {r : TelegramRuntime} :
    (message, call) ∈ (r.run config rules updates).2 ↔
      ∃ u ∈ updates, u.1.message = some message ∧ reachesHost config rules message u.2 = true ∧ call = callOf config message := by
  rw [run_log, List.mem_flatMap]
  refine exists_congr fun u => and_congr_right fun _ => ?_
  unfold updateLog
  cases hm : u.1.message with
  | none => simp
  | some m =>
    dsimp only
    constructor
    · intro h
      split at h
      · rename_i hreaches
        obtain ⟨hmessage, hcall⟩ := Prod.mk.inj (List.mem_singleton.mp h)
        rw [hmessage]
        exact ⟨rfl, hreaches, hcall⟩
      · cases h
    · rintro ⟨hmessage, hreaches, hcall⟩
      rw [Option.some.inj hmessage, if_pos hreaches, hcall]
      exact List.mem_singleton_self _

theorem callOf_key (config : TelegramConfig) (message : TelegramMessage) : (callOf config message).key = keyOf config message := by
  unfold callOf
  dsimp only
  split_ifs <;> rfl

/-- A prompt that reaches the host has passed the screen. -/
theorem isPrompt_of_callOf {key text : String} {attachments : List Attachment} {actor : Actor}
    (hreaches : reachesHost config rules message downloads = true)
    (hcall : callOf config message = .prompt key text attachments actor) :
    isPrompt config rules message downloads = true ∧ actor = telegramActor config message.sender := by
  unfold callOf at hcall
  have hreaches := (Bool.and_eq_true_iff.mp hreaches).2
  dsimp only at hcall hreaches
  generalize (if hasMedia message then stageAttachments config message else []) = staged at hcall
  split_ifs at hcall with hnew hstatus hstop hconfirm
  simp only [hnew, hstatus, hstop, hconfirm, or_self, if_false] at hreaches
  split_ifs at hreaches
  exact ⟨hreaches, (HostCall.prompt.inj hcall).2.2.2.symm⟩

/-- A confirmation that reaches the host is an owner's. -/
theorem owner_of_callOf_confirm {key : String} (hreaches : reachesHost config rules message downloads = true)
    (hcall : callOf config message = .confirm key) : telegramActor config message.sender = .owner := by
  unfold callOf at hcall
  have hreaches := (Bool.and_eq_true_iff.mp hreaches).2
  dsimp only at hcall hreaches
  split_ifs at hcall with hnew hstatus hstop hconfirm
  rw [hconfirm] at hreaches
  simpa using hreaches

/-! ### Who shares a session -/

/-- Two messages are of one chat and thread, and of one kind of chat. -/
def SameChat (m n : TelegramMessage) : Prop :=
  m.chatId = n.chatId ∧ m.messageThreadId = n.messageThreadId ∧ isGroupChat m.chatType = isGroupChat n.chatType

instance (m n : TelegramMessage) : Decidable (SameChat m n) := inferInstanceAs (Decidable (_ ∧ _ ∧ _))

theorem sessionKey_eq_iff {m n : TelegramMessage} : sessionKey m.chatId m.messageThreadId m.chatType =
    sessionKey n.chatId n.messageThreadId n.chatType ↔ SameChat m n := by
  refine ⟨sessionKey_inj, fun ⟨hchat, hthread, hkind⟩ => ?_⟩
  unfold sessionKey
  rw [hchat, hthread, hkind]

theorem keyOf_owner (h : telegramActor config message.sender = .owner) :
    keyOf config message = sessionKey message.chatId message.messageThreadId message.chatType := by
  unfold keyOf turnKey
  rw [h]

theorem keyOf_senderless (h : message.sender = none) :
    keyOf config message = sessionKey message.chatId message.messageThreadId message.chatType := by
  unfold keyOf turnKey
  rw [h]
  cases telegramActor config none <;> rfl

theorem keyOf_guest {user : ℤ} (h : telegramActor config message.sender = .guest) (hsender : message.sender = some user) :
    keyOf config message =
      sessionKey message.chatId message.messageThreadId message.chatType ++ "-guest-" ++ toString user := by
  unfold keyOf turnKey
  rw [h, hsender]

/-- Guests are kept apart from the owner and from each other in a log of calls. -/
structure Separated (config : TelegramConfig) (rules : Rules) (log : List (TelegramMessage × HostCall)) : Prop where
  screened : ∀ message key text attachments, (message, .prompt key text attachments .guest) ∈ log →
    (screenGuestInput rules (screenedText config message)).verdict = .allow
  confirmed : ∀ message key, (message, .confirm key) ∈ log → telegramActor config message.sender = .owner
  fromOwner : ∀ m call n call', (m, call) ∈ log → (n, call') ∈ log → telegramActor config m.sender = .guest →
    telegramActor config n.sender = .owner → call.key ≠ call'.key
  fromGuests : ∀ m call n call', (m, call) ∈ log → (n, call') ∈ log → telegramActor config m.sender = .guest →
    telegramActor config n.sender = .guest → m.sender ≠ n.sender → call.key ≠ call'.key

/-- No message without a sender reaches the host from a chat and thread from which one of an owner does. -/
def SenderlessApart (config : TelegramConfig) (rules : Rules) (updates : List (TelegramUpdate × Bool)) : Prop :=
  ∀ u ∈ updates, ∀ v ∈ updates, ∀ m n, u.1.message = some m → v.1.message = some n → m.sender = none →
    telegramActor config n.sender = .owner → reachesHost config rules m u.2 = true → reachesHost config rules n v.2 = true →
    ¬ SameChat m n

/-- Two guests of whom one at least has an id have keys of their own. -/
theorem guestKeys_ne {m n : TelegramMessage} (hm : telegramActor config m.sender = .guest)
    (hn : telegramActor config n.sender = .guest) (hne : m.sender ≠ n.sender) : keyOf config m ≠ keyOf config n := by
  cases hms : m.sender with
  | none =>
    cases hns : n.sender with
    | none => exact absurd (hms.trans hns.symm) hne
    | some user =>
      rw [keyOf_senderless hms, keyOf_guest hn hns]
      exact (guestKey_ne_sessionKey _ _ _ _ _).symm
  | some user =>
    cases hns : n.sender with
    | none =>
      rw [keyOf_guest hm hms, keyOf_senderless hns]
      exact guestKey_ne_sessionKey _ _ _ _ _
    | some user' =>
      rw [keyOf_guest hm hms, keyOf_guest hn hns]
      intro h
      rw [hms, hns, guestKey_inj h] at hne
      exact hne rfl

/-- **With safe mode on, guests are kept apart in the run of any updates if and only if no message
without a sender reaches the host from a chat and thread from which one of an owner does.** -/
theorem run_separated_iff (config : TelegramConfig) (rules : Rules) (updates : List (TelegramUpdate × Bool))
    (hmode : config.safeMode = .ownerAndGuest) :
    Separated config rules (TelegramRuntime.new.run config rules updates).2 ↔ SenderlessApart config rules updates := by
  constructor
  · intro h u hu v hv m n hm hn hsender howner hreaches hreaches' hsame
    have hguest : telegramActor config m.sender = .guest := by
      rw [telegramActor_guest_iff hmode, hsender]
      exact fun user hnone => (by cases hnone)
    refine h.fromOwner m (callOf config m) n (callOf config n) (mem_run.mpr ⟨u, hu, hm, hreaches, rfl⟩)
      (mem_run.mpr ⟨v, hv, hn, hreaches', rfl⟩) hguest howner ?_
    rw [callOf_key, callOf_key, keyOf_senderless hsender, keyOf_owner howner]
    exact sessionKey_eq_iff.mpr hsame
  · intro h
    refine ⟨fun message key text attachments hmem => ?_, fun message key hmem => ?_, ?_, ?_⟩
    · obtain ⟨u, -, -, hreaches, hcall⟩ := mem_run.mp hmem
      obtain ⟨hprompt, hactor⟩ := isPrompt_of_callOf hreaches hcall.symm
      simp only [isPrompt, Bool.and_eq_true, Bool.or_eq_true, decide_eq_true_eq, ← hactor] at hprompt
      exact hprompt.1.1.resolve_left (by decide)
    · obtain ⟨u, -, -, hreaches, hcall⟩ := mem_run.mp hmem
      exact owner_of_callOf_confirm hreaches hcall.symm
    · intro m call n call' hmem hmem' hguest howner
      obtain ⟨u, hu, hm, hreaches, hcall⟩ := mem_run.mp hmem
      obtain ⟨v, hv, hn, hreaches', hcall'⟩ := mem_run.mp hmem'
      rw [hcall, hcall', callOf_key, callOf_key, keyOf_owner howner]
      cases hsender : m.sender with
      | none =>
        rw [keyOf_senderless hsender]
        exact fun heq => h u hu v hv m n hm hn hsender howner hreaches hreaches' (sessionKey_eq_iff.mp heq)
      | some user =>
        rw [keyOf_guest hguest hsender]
        exact guestKey_ne_sessionKey _ _ _ _ _
    · intro m call n call' hmem hmem' hguest hguest' hne
      obtain ⟨u, -, -, -, hcall⟩ := mem_run.mp hmem
      obtain ⟨v, -, -, -, hcall'⟩ := mem_run.mp hmem'
      rw [hcall, hcall', callOf_key, callOf_key]
      exact guestKeys_ne hguest hguest' hne

end

/-! ### A message without a sender -/

/-- A file that lists one chat and one owner. -/
def chatFile : Json :=
  .obj [("token", .str "t"), ("allowed_chat_ids", .arr [.num 5]), ("owner_user_ids", .arr [.num 1])]

/-- A message of a text in the chat. -/
def chatMessage (messageId : ℤ) (sender : Option ℤ) (text : String) : TelegramMessage where
  messageId
  chatId := 5
  chatType := "group"
  sender
  text := some text
  caption := none
  messageThreadId := none
  entities := []
  captionEntities := []
  photo := []
  document := none
  sticker := false
  voice := false
  audio := false
  videoNote := false

/-- Rules that refuse nothing. -/
def openRules : Rules := ⟨fun _ _ => false, id⟩

/-- A message without a sender stops the session of the chat, and the owner asks for its status. -/
def senderlessUpdates : List (TelegramUpdate × Bool) :=
  [(⟨1, some (chatMessage 1 none "/stop")⟩, true), (⟨2, some (chatMessage 2 (some 1) "/status")⟩, true)]

/-- It is the owner's session that was stopped. -/
theorem senderless_not_separated : ∃ config, parseTelegramConfigFile chatFile "/" none = .ok config ∧
    config.safeMode = .ownerAndGuest ∧
    ¬ Separated config openRules (TelegramRuntime.new.run config openRules senderlessUpdates).2 := by
  refine ⟨_, rfl, rfl, fun h => ?_⟩
  refine h.fromOwner (chatMessage 1 none "/stop") (.halt "grp-5") (chatMessage 2 (some 1) "/status") (.status "grp-5") ?_ ?_ rfl rfl rfl
  · decide
  · decide

/-- **Nobody reaches the host who is not listed.** An accepted file lists a user or a chat, and an owner if safe mode is on; and
whatever the updates are, who calls the host is in every list that the file gives. -/
theorem run_listed {config : TelegramConfig} {raw : Json} {cwd : String} {envToken : Option String}
    (h : parseTelegramConfigFile raw cwd envToken = .ok config) (rules : Rules) (updates : List (TelegramUpdate × Bool)) :
    (config.allowedUserIds ≠ [] ∨ config.allowedChatIds ≠ []) ∧
      (config.safeMode = .ownerAndGuest → config.ownerUserIds ≠ []) ∧
      ∀ message call, (message, call) ∈ (TelegramRuntime.new.run config rules updates).2 →
        (config.allowedUserIds ≠ [] → ∃ user ∈ config.allowedUserIds, message.sender = some user) ∧
          (config.allowedChatIds ≠ [] → message.chatId ∈ config.allowedChatIds) := by
  refine ⟨(parse_lists h).1, (parse_lists h).2, fun message call hmem => ?_⟩
  obtain ⟨u, -, -, hreaches, -⟩ := mem_run.mp hmem
  simp only [reachesHost, isLetIn, Bool.and_eq_true] at hreaches
  exact allowed_listed hreaches.1.1.2

theorem run_listed_chatFile : ∃ config, parseTelegramConfigFile chatFile "/" none = .ok config ∧ config.ownerUserIds ≠ [] :=
  ⟨_, rfl, (@run_listed _ chatFile "/" none rfl openRules senderlessUpdates).2.1 rfl⟩

/-- A guest with an id and the owner in one chat. -/
def guestUpdates : List (TelegramUpdate × Bool) :=
  [(⟨1, some (chatMessage 1 (some 2) "/stop")⟩, true), (⟨2, some (chatMessage 2 (some 1) "/status")⟩, true)]

theorem guest_separated : ∃ config, parseTelegramConfigFile chatFile "/" none = .ok config ∧
    Separated config openRules (TelegramRuntime.new.run config openRules guestUpdates).2 := by
  refine ⟨_, rfl, (run_separated_iff _ openRules guestUpdates rfl).mpr fun u hu v _ m n hm _ hsender => ?_⟩
  rcases List.mem_cons.mp hu with rfl | hu
  · obtain rfl := Option.some.inj hm
    cases hsender
  · obtain rfl := List.mem_singleton.mp hu
    obtain rfl := Option.some.inj hm
    cases hsender

end Trek.Telegram
