/-
# The telegram channel

`TelegramRuntime` (`core/telegram/runtime.ts`) turns the updates of a bot into calls of a host, which
keeps an agent session for each session key (`AgentTelegramHost` in `core/telegram/host.ts`). The rules
guest text is screened by are predicates, and so is how a refused text is quoted to the owner. Not
modelled: how a reply is cut into messages, and messages that cannot be sent.
-/
import Trek.Gate.Hooks
import Trek.Session.Entry
import Trek.Telegram.Config

namespace Trek.Telegram

open ToolGate (includes)
open ToolGate.AgentSession (collapseSpace)

/-! ### Updates -/

/-- `TelegramPhotoSize`. -/
structure TelegramPhotoSize where
  fileId : String
  width : ℕ
  height : ℕ
  deriving DecidableEq

/-- `TelegramDocument`. -/
structure TelegramDocument where
  fileId : String
  fileName : Option String
  mimeType : Option String
  deriving DecidableEq

/-- `TelegramMessage`. `sender` is `from.id`, of an entity only its type is read, of other media whether
it is there. -/
structure TelegramMessage where
  messageId : ℤ
  chatId : ℤ
  chatType : String
  sender : Option ℤ
  text : Option String
  caption : Option String
  messageThreadId : Option ℤ
  entities : List String
  captionEntities : List String
  photo : List TelegramPhotoSize
  document : Option TelegramDocument
  sticker : Bool
  voice : Bool
  audio : Bool
  videoNote : Bool
  deriving DecidableEq

/-- `TelegramUpdate`. -/
structure TelegramUpdate where
  updateId : ℤ
  message : Option TelegramMessage
  deriving DecidableEq

/-- `TelegramPromptAttachment`. -/
inductive Attachment
  | image (path mimeType : String)
  | file (path : String) (mimeType : Option String)
  deriving DecidableEq

/-! ### The screen for guests -/

/-- `DangerClass`. -/
inductive DangerClass
  | instructionOverride | impersonation | secretRequest | toolRequest | exfiltration | safeModeOff
  deriving DecidableEq

/-- The rules, and `redactExcerpt`. -/
structure Rules where
  pattern : DangerClass → String → Bool
  redactExcerpt : String → String

/-- The verdict of a screen. -/
inductive Verdict
  | allow | refuse
  deriving DecidableEq

/-- `GuestScreen`. -/
structure GuestScreen where
  verdict : Verdict
  classes : List DangerClass
  excerpt : String
  deriving DecidableEq

/-- The classes of the rules, in order. -/
def dangerClasses : List DangerClass :=
  [.instructionOverride, .impersonation, .secretRequest, .toolRequest, .exfiltration, .safeModeOff]

/-- How a class is written. -/
def DangerClass.name : DangerClass → String
  | .instructionOverride => "instruction_override"
  | .impersonation => "impersonation"
  | .secretRequest => "secret_request"
  | .toolRequest => "tool_request"
  | .exfiltration => "exfiltration"
  | .safeModeOff => "safe_mode_off"

/-- `screenGuestInput`. -/
def screenGuestInput (rules : Rules) (raw : String) : GuestScreen :=
  let classes := dangerClasses.filter (rules.pattern · raw)
  ⟨if classes ≠ [] then .refuse else .allow, classes, rules.redactExcerpt raw⟩

/-! ### The host -/

/-- What the host changes in a session. -/
structure HostSession where
  halted : Bool
  allowDestructiveOps : Bool
  hasTools : Bool
  memoryEnabled : Bool
  deriving DecidableEq

/-- A call of the host. -/
inductive HostCall
  | prompt (key text : String) (attachments : List Attachment) (actor : Actor)
  | halt (key : String)
  | reset (key : String)
  | status (key : String)
  | confirm (key : String)
  deriving DecidableEq

/-- The session key of a call. -/
def HostCall.key : HostCall → String
  | .prompt key _ _ _ => key
  | .halt key => key
  | .reset key => key
  | .status key => key
  | .confirm key => key

/-- The sessions of `AgentTelegramHost`. -/
abbrev AgentTelegramHost := OrdMap String HostSession

namespace AgentTelegramHost

/-- `get`. -/
def get (host : AgentTelegramHost) (key : String) : HostSession := (host.get? key).getD ⟨false, false, true, true⟩

/-- `prompt`, up to the prompt of the session. -/
def prompt (host : AgentTelegramHost) (key : String) (actor : Actor) : AgentTelegramHost :=
  match actor with
  | .guest => host.set key { host.get key with hasTools := false, memoryEnabled := false }
  | .owner => host.set key (host.get key)

/-- `halt`. -/
def halt (host : AgentTelegramHost) (key : String) : AgentTelegramHost :=
  match host.get? key with
  | some session => host.set key { session with halted := true }
  | none => host

/-- `confirm`. -/
def confirm (host : AgentTelegramHost) (key : String) : AgentTelegramHost :=
  match host.get? key with
  | some session => host.set key { session with allowDestructiveOps := true }
  | none => host

/-- `status`. -/
def status (host : AgentTelegramHost) (key : String) : String :=
  match host.get? key with
  | none => "session=" ++ key ++ " idle"
  | some session => "session=" ++ key ++ " " ++ if session.halted then "halted" else "running"

/-- What a call makes of the sessions. -/
def call (host : AgentTelegramHost) : HostCall → AgentTelegramHost
  | .prompt key _ _ actor => host.prompt key actor
  | .halt key => host.halt key
  | .reset key => host.delete key
  | .status _ => host
  | .confirm key => host.confirm key

end AgentTelegramHost

/-! ### Reading a message -/

/-- `isGroupChat`. -/
def isGroupChat (chatType : String) : Bool := chatType = "group" || chatType = "supergroup"

/-- `firstToken`. -/
def firstToken (text : String) : List Char := (jsTrim text).toList.takeWhile (!isJsSpace ·)

/-- `commandName`. -/
def commandName (text : String) : String :=
  let token := firstToken text
  if token.head? = some '/' then String.ofList (token.takeWhile (· ≠ '@')) else ""

/-- `messageText`. -/
def messageText (message : TelegramMessage) : String := jsTrim ((message.text <|> message.caption).getD "")

/-- `largestPhoto`. -/
def largestPhoto (message : TelegramMessage) : Option TelegramPhotoSize :=
  match message.photo with
  | [] => none
  | first :: photos =>
    some (photos.foldl (fun best size => if best.width * best.height < size.width * size.height then size else best) first)

/-- `hasMedia`. -/
def hasMedia (message : TelegramMessage) : Bool := (largestPhoto message).isSome || message.document.isSome

/-- `isUnsupportedMedia`. -/
def isUnsupportedMedia (message : TelegramMessage) : Bool :=
  message.sticker || message.voice || message.audio || message.videoNote

/-- `isAddressed`. -/
def isAddressed (config : TelegramConfig) (message : TelegramMessage) (text : String) : Bool :=
  if !isGroupChat message.chatType then true
  else if (commandName text).toList.head? = some '/' then true
  else
    match config.botUsername.filter truthy with
    | none => false
    | some username =>
      includes text ("@" ++ username) || (message.entities ++ message.captionEntities).contains "mention"

/-- `text.replaceAll(word, "")`: some characters of a word that was found are still to be skipped. -/
def removeAll (word : List Char) : ℕ → List Char → List Char
  | _, [] => []
  | skip + 1, _ :: cs => removeAll word skip cs
  | 0, c :: cs => if word.isPrefixOf (c :: cs) then removeAll word (word.length - 1) cs else c :: removeAll word 0 cs

/-- `promptText`. -/
def promptText (config : TelegramConfig) (text : String) : String :=
  match config.botUsername.filter truthy with
  | none => text
  | some username => jsTrim (String.ofList (collapseSpace (removeAll ("@" ++ username).toList 0 text.toList)))

/-- The last component of a path. -/
def basename (path : String) : List Char :=
  ((path.toList.reverse.dropWhile (· = '/')).takeWhile (· ≠ '/')).reverse

/-- The name a document is kept under. -/
def documentName (message : TelegramMessage) (document : TelegramDocument) : String :=
  let raw := ((document.fileName.filter truthy).map basename).getD []
  let cleaned := (raw.map fun c => if isAlnum c || c ∈ ['.', '_', '-'] then c else '_').dropWhile (· = '.')
  if cleaned = [] then toString message.messageId ++ ".bin" else String.ofList cleaned

/-- `stageAttachments`, with all files downloaded. -/
def stageAttachments (config : TelegramConfig) (message : TelegramMessage) : List Attachment :=
  let inbox := config.cwd ++ "/.trek/telegram/inbox/"
  let images := match largestPhoto message with
    | some _ => [.image (inbox ++ toString message.messageId ++ ".jpg") "image/jpeg"]
    | none => []
  let files := match message.document with
    | some document => [.file (inbox ++ documentName message document) document.mimeType]
    | none => []
  images ++ files

/-! ### The runtime -/

/-- `ChannelAudit`. -/
structure ChannelAudit where
  actor : Actor
  safeMode : Bool
  guestInput : Option Verdict
  dangerClasses : List DangerClass
  excerpt : String
  deriving DecidableEq

/-- The state of `TelegramRuntime`, with its host. -/
structure TelegramRuntime where
  offset : ℤ
  sessions : List String
  refusals : OrdMap String ℕ
  repeatedNotice : List String
  audits : List ChannelAudit
  host : AgentTelegramHost
  deriving DecidableEq

/-- A new runtime. -/
def TelegramRuntime.new : TelegramRuntime := ⟨0, [], .empty, [], [], .empty⟩

/-- What the runtime does for an update. -/
inductive Effect
  | sendMessage (chatId : ℤ) (text : String)
  | sendReply (chatId : ℤ) (chatType : String)
  | call (call : HostCall)
  deriving DecidableEq

/-- `sessionKey`. -/
def sessionKey (chatId : ℤ) (threadId : Option ℤ) (chatType : String) : String :=
  let chat := (if isGroupChat chatType then "grp" else "dm") ++ "-" ++ toString chatId
  match threadId with
  | some thread => chat ++ "-t" ++ toString thread
  | none => chat

/-- `turnKey`. -/
def turnKey (chatId : ℤ) (threadId : Option ℤ) (chatType : String) (userId : Option ℤ) (actor : Actor) : String :=
  let base := sessionKey chatId threadId chatType
  match actor, userId with
  | .guest, some user => base ++ "-guest-" ++ toString user
  | _, _ => base

section

variable (config : TelegramConfig) (rules : Rules)

/-- A key is added to a set. -/
def addKey (keys : List String) (key : String) : List String := if key ∈ keys then keys else keys ++ [key]

/-- `notifyOwner`. -/
def TelegramRuntime.notifyOwner (r : TelegramRuntime) (chatId : ℤ) (userId : Option ℤ) (classes : List DangerClass)
    (excerpt : String) : TelegramRuntime × List Effect :=
  if !config.guestRefusalNotice then (r, [])
  else
    let user := (userId.map toString).getD "unknown"
    let who := toString chatId ++ ":" ++ user
    let count := (r.refusals.get? who).getD 0 + 1
    let repeated : Bool := 3 ≤ count ∧ who ∉ r.repeatedNotice
    let text := "Guest " ++ user ++ " in chat " ++ toString chatId ++ ": " ++ ", ".intercalate (classes.map (·.name)) ++ ". " ++
      excerpt ++ if repeated then " Repeated refusals." else ""
    ({ r with
        refusals := r.refusals.set who count
        repeatedNotice := if repeated then r.repeatedNotice ++ [who] else r.repeatedNotice },
      config.ownerUserIds.map (.sendMessage · text))

/-- The call of a host. -/
def TelegramRuntime.callHost (r : TelegramRuntime) (call : HostCall) : TelegramRuntime := { r with host := r.host.call call }

/-- The prompt of a message. -/
def turnPrompt (message : TelegramMessage) : String :=
  let prompt := promptText config (messageText message)
  if prompt ≠ "" then prompt else if hasMedia message then "See attached media." else ""

/-- What is screened of a message. -/
def screenedText (message : TelegramMessage) : String :=
  let names := [message.document.bind (·.fileName), message.caption].filterMap (·.filter truthy)
  "\n".intercalate (turnPrompt config message :: names)

/-- `handleUpdate` of a message that is no command, from its attachments on. -/
def TelegramRuntime.promptHost (r : TelegramRuntime) (message : TelegramMessage) (key : String) (actor : Actor)
    (downloads : Bool) : TelegramRuntime × List Effect :=
  if hasMedia message && !downloads then (r, [])
  else
    let attachments := if hasMedia message then stageAttachments config message else []
    let prompt := turnPrompt config message
    if prompt = "" ∧ attachments = [] then (r, [])
    else
      let call := .prompt key prompt attachments actor
      (r.callHost call, [.call call, .sendReply message.chatId message.chatType])

/-- `handleUpdate` of a message that is no command. -/
def TelegramRuntime.converse (r : TelegramRuntime) (message : TelegramMessage) (key : String) (actor : Actor)
    (downloads : Bool) : TelegramRuntime × List Effect :=
  match actor with
  | .guest =>
    let screen := screenGuestInput rules (screenedText config message)
    let r := { r with audits := r.audits ++ [(⟨actor, true, some screen.verdict, screen.classes, screen.excerpt⟩ : ChannelAudit)] }
    if screen.verdict = .refuse then
      let (r, notices) := r.notifyOwner config message.chatId message.sender screen.classes screen.excerpt
      (r, .sendMessage message.chatId "I can't help with that." :: notices)
    else r.promptHost config message key actor downloads
  | .owner =>
    let r := { r with audits := r.audits ++ [(⟨actor, config.safeMode == SafeMode.ownerAndGuest, none, [], ""⟩ : ChannelAudit)] }
    r.promptHost config message key actor downloads

/-- `handleUpdate` of a message that is let in. -/
def TelegramRuntime.turn (r : TelegramRuntime) (message : TelegramMessage) (downloads : Bool) :
    TelegramRuntime × List Effect :=
  let chatId := message.chatId
  let actor := telegramActor config message.sender
  let key := turnKey chatId message.messageThreadId message.chatType message.sender actor
  let r := { r with sessions := addKey r.sessions key }
  let command := commandName (messageText message)
  if command = "/start" ∨ command = "/help" then
    (r, [.sendMessage chatId "Trek remote agent. Commands: /start  /help  /new  /status  /stop  /confirm"])
  else if command = "/new" then
    (r.callHost (.reset key), [.call (.reset key), .sendMessage chatId "New session started."])
  else if command = "/status" then (r, [.call (.status key), .sendMessage chatId (r.host.status key)])
  else if command = "/stop" then (r.callHost (.halt key), [.call (.halt key), .sendMessage chatId "HALT."])
  else if command = "/confirm" then
    if actor = .guest then (r, [.sendMessage chatId "Confirmations are for the owner."])
    else (r.callHost (.confirm key), [.call (.confirm key), .sendMessage chatId "Destructive ops confirmed for this session."])
  else r.converse config rules message key actor downloads

/-- `handleUpdate`. `downloads`: the files of the message can be downloaded. -/
def TelegramRuntime.handleUpdate (r : TelegramRuntime) (update : TelegramUpdate) (downloads : Bool) :
    TelegramRuntime × List Effect :=
  let r := { r with offset := max r.offset (update.updateId + 1) }
  match update.message with
  | none => (r, [])
  | some message =>
    let text := messageText message
    if text = "" ∧ !hasMedia message ∧ !isUnsupportedMedia message then (r, [])
    else if !isAddressed config message text then (r, [])
    else if !isAllowedTelegramSender config message.sender message.chatId then (r, [])
    else if isUnsupportedMedia message then
      (r, [.sendMessage message.chatId "Unsupported media (stickers/voice). Send text, a photo, or a document."])
    else r.turn config rules message downloads

/-- The calls of the host among effects. -/
def hostCalls (effects : List Effect) : List HostCall :=
  effects.filterMap fun
    | .call call => some call
    | _ => none

/-- The updates one after the other, with the calls of the host that each makes. -/
def TelegramRuntime.run : TelegramRuntime → List (TelegramUpdate × Bool) → TelegramRuntime × List (TelegramMessage × HostCall)
  | r, [] => (r, [])
  | r, (update, downloads) :: updates =>
    let (r, effects) := r.handleUpdate config rules update downloads
    let (r, log) := r.run updates
    (r, update.message.toList.flatMap (fun message => (hostCalls effects).map (message, ·)) ++ log)

end

end Trek.Telegram
