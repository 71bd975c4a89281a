/-
# The configuration of the telegram channel

`core/telegram/config.ts`: what `telegram.json` has to hold, who may write to the bot, and who of
them is an owner. An accepted configuration lets only listed users or chats in (`allowed_listed`), and
with safe mode on it has an owner (`parse_lists`).
-/
import Trek.Lib.Text
import Trek.Messages

namespace Trek.Telegram

/-- `TelegramSafeMode`. -/
inductive SafeMode
  | off | ownerAndGuest
  deriving DecidableEq

/-- `TelegramConfig`. -/
structure TelegramConfig where
  token : String
  allowedUserIds : List ℤ
  allowedChatIds : List ℤ
  ownerUserIds : List ℤ
  safeMode : SafeMode
  guestRefusalNotice : Bool
  cwd : String
  botUsername : Option String
  deriving DecidableEq

/-- A number that is an integer. -/
def integer? : Json → Option ℤ
  | .num n => if n.den = 1 then some n.num else none
  | _ => none

/-- `integers`. -/
def integers : Option Json → List ℤ
  | some (.arr ids) => ids.filterMap integer?
  | _ => []

/-- A field that is a string with something in it, without the white space around it. -/
def trimmed? : Option Json → Option String
  | some (.str s) => if jsTrim s = "" then none else some (jsTrim s)
  | _ => none

/-- Without the `@` at its start. -/
def dropAt (s : String) : String :=
  match s.toList with
  | '@' :: rest => String.ofList rest
  | _ => s

/-- The safe mode: what the file says, and else on for a list of owners. -/
def safeModeOf (mode : Option Json) (ownerUserIds : List ℤ) : SafeMode :=
  if mode = some (.str "owner_and_guest") then .ownerAndGuest
  else if mode = some (.str "off") then .off
  else if ownerUserIds ≠ [] then .ownerAndGuest
  else .off

/-- `parseTelegramConfigFile`. -/
def parseTelegramConfigFile (raw : Json) (cwd : String) (envToken : Option String) : Except String TelegramConfig :=
  match raw with
  | .null | .bool _ | .num _ | .str _ => .error "telegram.json must be an object."
  | rec =>
    match trimmed? (envToken.map .str) <|> trimmed? (rec.get? "token") with
    | none => .error "Telegram bot token missing (TREK_TELEGRAM_BOT_TOKEN or telegram.json token)."
    | some token =>
      let allowedUserIds := integers (rec.get? "allowed_user_ids")
      let allowedChatIds := integers (rec.get? "allowed_chat_ids")
      if allowedUserIds = [] ∧ allowedChatIds = [] then
        .error "Telegram allowlist is empty (set allowed_user_ids or allowed_chat_ids)."
      else
        let ownerUserIds := integers (rec.get? "owner_user_ids")
        let safeMode := safeModeOf (rec.get? "safe_mode") ownerUserIds
        if safeMode = .ownerAndGuest ∧ ownerUserIds = [] then .error "Telegram safe mode needs owner_user_ids."
        else
          .ok {
            token, allowedUserIds, allowedChatIds, ownerUserIds, safeMode
            guestRefusalNotice := rec.get? "guest_refusal_notice" ≠ some (.str "off")
            cwd := (trimmed? (rec.get? "cwd")).getD cwd
            botUsername := (trimmed? (rec.get? "bot_username")).map dropAt }

/-- `isAllowedTelegramSender`. -/
def isAllowedTelegramSender (config : TelegramConfig) (userId : Option ℤ) (chatId : ℤ) : Bool :=
  let userOk := userId.any config.allowedUserIds.contains
  let chatOk := config.allowedChatIds.contains chatId
  if !config.allowedUserIds.isEmpty && !config.allowedChatIds.isEmpty then userOk && chatOk
  else if !config.allowedUserIds.isEmpty then userOk
  else chatOk

/-- Who writes. -/
inductive Actor
  | owner | guest
  deriving DecidableEq

/-- `telegramActor`. -/
def telegramActor (config : TelegramConfig) (userId : Option ℤ) : Actor :=
  if config.safeMode = .off then .owner
  else if userId.any config.ownerUserIds.contains then .owner
  else .guest

variable {config : TelegramConfig} {raw : Json} {cwd : String} {envToken : Option String} {userId : Option ℤ} {chatId : ℤ}

/-- An accepted configuration lists a user or a chat, and with safe mode on it has an owner. -/
theorem parse_lists (h : parseTelegramConfigFile raw cwd envToken = .ok config) :
    (config.allowedUserIds ≠ [] ∨ config.allowedChatIds ≠ []) ∧
      (config.safeMode = .ownerAndGuest → config.ownerUserIds ≠ []) := by
  unfold parseTelegramConfigFile at h
  split at h
  all_goals try cases h
  split at h
  · cases h
  · dsimp only at h
    split at h
    · cases h
    · rename_i hlisted
      split at h
      · cases h
      · rename_i howner
        obtain rfl := Except.ok.inj h
        exact ⟨not_and_or.mp hlisted, fun hmode hnil => howner ⟨hmode, hnil⟩⟩

/-- Who is let in is in every list there is. -/
theorem allowed_listed (h : isAllowedTelegramSender config userId chatId = true) :
    (config.allowedUserIds ≠ [] → ∃ user ∈ config.allowedUserIds, userId = some user) ∧
      (config.allowedChatIds ≠ [] → chatId ∈ config.allowedChatIds) := by
  have huser : userId.any config.allowedUserIds.contains = true → ∃ user ∈ config.allowedUserIds, userId = some user := by
    intro hany
    obtain ⟨user, hu, hmem⟩ := (Option.any_eq_true _ _).mp hany
    exact ⟨user, List.contains_iff_mem.mp hmem, hu⟩
  simp only [isAllowedTelegramSender] at h
  split at h
  · obtain ⟨hu, hc⟩ := Bool.and_eq_true_iff.mp h
    exact ⟨fun _ => huser hu, fun _ => List.contains_iff_mem.mp hc⟩
  · rename_i hboth
    split at h
    · exact ⟨fun _ => huser h, fun hne => absurd (by simp_all) hboth⟩
    · rename_i hnone
      exact ⟨fun hne => absurd (by simpa using hne) hnone, fun _ => List.contains_iff_mem.mp h⟩

/-- A guest is no owner, a sender that is not known is a guest. -/
theorem telegramActor_guest_iff (hmode : config.safeMode = .ownerAndGuest) :
    telegramActor config userId = .guest ↔ ∀ user, userId = some user → user ∉ config.ownerUserIds := by
  unfold telegramActor
  rw [if_neg (by rw [hmode]; decide)]
  cases userId with
  | none => simp
  | some user => simp

end Trek.Telegram
