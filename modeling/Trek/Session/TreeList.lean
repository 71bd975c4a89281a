/-
# The list of the session tree

`TreeList` of `tree-selector.ts`: the session tree as a list to move in. `flattenTree` lists the nodes
in preorder, the branch with the current leaf first, and says how far each is indented and which lines
are drawn beside it. `applyFilter` leaves out what the filter, the search and the folded nodes hide,
and `recalculateVisualStructure` draws what is left as the tree in which a node hangs from its nearest
visible ancestor. The objects in `flatNodes` and `filteredNodes` are the same ones, so the two lists
are redrawn together.
-/
import Mathlib.Data.List.Infix
import Trek.Compaction.Conversation
import Trek.Lib.Rose

namespace Trek

open Rose

/-- A `SessionTreeNode` without its children. -/
structure SessionNode where
  entry : SessionEntry
  label : Option String
  deriving DecidableEq

/-- `node.entry.id`. -/
def SessionNode.id (n : SessionNode) : String := n.entry.id

/-- `SessionTreeNode`. -/
abbrev SessionTreeNode := Rose SessionNode

/-- `GutterInfo`. -/
structure GutterInfo where
  position : ℕ
  shown : Bool
  deriving DecidableEq

/-- `FlatNode`. Of the node only the entry and the label are read once the list is there. -/
structure FlatNode where
  node : SessionNode
  indent : ℕ
  showConnector : Bool
  isLast : Bool
  gutters : List GutterInfo
  isVirtualRootChild : Bool
  deriving DecidableEq

/-! ### The layout

Both loops have the same stack items and the same rules for what they push, one for nodes and the other
for ids. -/

/-- `StackItem`. -/
structure StackItem (ν : Type*) where
  node : ν
  indent : ℕ
  justBranched : Bool
  showConnector : Bool
  isLast : Bool
  gutters : List GutterInfo
  isVirtualRootChild : Bool
  deriving DecidableEq

section

variable {ν : Type*}

/-- The items of siblings, the first one on top of the stack. -/
def siblingItems (indent : ℕ) (branched : Bool) (gutters : List GutterInfo) (isVirtualRootChild : Bool)
    (siblings : List ν) : List (StackItem ν) :=
  siblings.mapIdx fun i node =>
    ⟨node, indent, branched, branched, i = siblings.length - 1, gutters, isVirtualRootChild⟩

/-- What the stack starts with. Several roots are the children of a virtual root. -/
def rootItems (multipleRoots : Bool) (roots : List ν) : List (StackItem ν) :=
  siblingItems (if multipleRoots then 1 else 0) multipleRoots [] multipleRoots roots

/-- What is pushed for the children of a node. -/
def childItems (multipleRoots : Bool) (item : StackItem ν) (children : List ν) : List (StackItem ν) :=
  let multipleChildren : Bool := 1 < children.length
  let childIndent :=
    if multipleChildren then item.indent + 1
    else if item.justBranched && 0 < item.indent then item.indent + 1
    else item.indent
  let connectorDisplayed := item.showConnector && !item.isVirtualRootChild
  let currentDisplayIndent := if multipleRoots then item.indent - 1 else item.indent
  let connectorPosition := currentDisplayIndent - 1
  let childGutters :=
    if connectorDisplayed then item.gutters ++ [⟨connectorPosition, !item.isLast⟩] else item.gutters
  siblingItems childIndent multipleChildren childGutters false children

end

/-! ### The tree as a list -/

/-- `entry.id === leafId`. -/
def isLeaf (leafId : Option String) (n : SessionNode) : Bool := leafId = some n.id

/-- `containsActive`. -/
def containsActive (leafId : Option String) (node : SessionTreeNode) : Bool := node.has (isLeaf leafId)

/-- `orderedRoots`. -/
def orderedRoots (leafId : Option String) (roots : List SessionTreeNode) : List SessionTreeNode :=
  roots.mergeSort fun a b => (containsActive leafId b).toNat ≤ (containsActive leafId a).toNat

/-- `orderedChildren`. -/
def orderedChildren (leafId : Option String) (children : List SessionTreeNode) : List SessionTreeNode :=
  children.filter (containsActive leafId) ++ children.filter fun child => !containsActive leafId child

/-- The flat node of an item. -/
def StackItem.flatNode (item : StackItem SessionTreeNode) : FlatNode :=
  ⟨item.node.value, item.indent, item.showConnector, item.isLast, item.gutters, item.isVirtualRootChild⟩

/-- `flattenTree`, where `multipleRoots` is the field of the list. It pops every node once; `none` would
be a stack that is not empty then. -/
def flattenTree (multipleRoots : Bool) (leafId : Option String) (roots : List SessionTreeNode) : Option (List FlatNode) :=
  let expand item := childItems multipleRoots item (orderedChildren leafId item.node.children)
  (Rose.walk expand (nodes roots).length (rootItems (1 < roots.length) (orderedRoots leafId roots))).map
    (List.map StackItem.flatNode)

/-! ### The filter -/

/-- `FilterMode`. -/
inductive FilterMode
  | default | noTools | userOnly | labeledOnly | all
  deriving DecidableEq

/-- `hasTextContent` of the content of an assistant. -/
def hasTextContent (content : List AssistantBlock) : Bool :=
  content.any fun
    | .text text => jsTrim text ≠ ""
    | _ => false

/-- Whether an entry is an assistant message with only tool calls, which is not shown. -/
def onlyToolCalls (e : SessionEntry) : Bool :=
  match e.body with
  | .message (.assistant msg) =>
    let isErrorOrAborted := msg.stopReason ≠ .stop && msg.stopReason ≠ .toolUse
    !hasTextContent msg.content && !isErrorOrAborted
  | _ => false

/-- `isSettingsEntry`. -/
def isSettingsEntry (e : SessionEntry) : Bool :=
  match e.body with
  | .label .. | .custom .. | .modelChange .. | .thinkingLevelChange .. | .sessionInfo .. => true
  | _ => false

/-- `passesFilter`. -/
def passesFilter (mode : FilterMode) (n : SessionNode) : Bool :=
  match mode with
  | .userOnly =>
    match n.entry.body with
    | .message (.user ..) => true
    | _ => false
  | .noTools =>
    !isSettingsEntry n.entry &&
      match n.entry.body with
      | .message (.toolResult _) => false
      | _ => true
  | .labeledOnly => n.label.isSome
  | .all => true
  | .default => !isSettingsEntry n.entry

def maxLen : ℕ := 200

/-- The loop of `extractContent` over the texts of the blocks. -/
def extractTexts (result : String) : List String → String
  | [] => result
  | text :: texts =>
    let result := result ++ text
    if maxLen ≤ jsLength result then String.ofList (sliceStart result.toList maxLen) else extractTexts result texts

/-- The texts of the blocks of an assistant. -/
def assistantTexts (content : List AssistantBlock) : List String :=
  content.filterMap fun
    | .text text => some text
    | _ => none

/-- `extractContent`. -/
def extractContent : UserContent → String
  | .text text => String.ofList (sliceStart text.toList maxLen)
  | .blocks blocks => extractTexts "" (blockTexts blocks)

/-- `[extractContent(content)]`, if `content` is truthy. -/
def contentParts : UserContent → List String
  | .text "" => []
  | content => [extractContent content]

/-- What `getSearchableText` collects of a message. -/
def messageParts : AgentMessage → List String
  | .user content _ => "user" :: contentParts content
  | .assistant msg => ["assistant", extractTexts "" (assistantTexts msg.content)]
  | .toolResult msg => ["toolResult", extractTexts "" (blockTexts msg.content)]
  | .bashExecution msg => "bashExecution" :: if truthy msg.command then [msg.command] else []
  | .custom msg => "custom" :: contentParts msg.content
  | .hookMessage msg => "hookMessage" :: contentParts msg.content
  | .branchSummary .. => ["branchSummary"]
  | .compactionSummary .. => ["compactionSummary"]

/-- What `getSearchableText` collects of an entry. -/
def entryParts : EntryBody → List String
  | .message msg => messageParts msg
  | .customMessage customType (.text text) _ _ => [customType, text]
  | .customMessage customType content _ _ => [customType, extractContent content]
  | .compaction .. => ["compaction"]
  | .branchSummary _ summary _ _ => ["branch summary", summary]
  | .sessionInfo name => "title" :: (name.filter truthy).toList
  | .modelChange _ modelId => ["model", modelId]
  | .thinkingLevelChange thinkingLevel => ["thinking", thinkingLevel]
  | .custom customType _ => ["custom", customType]
  | .label _ label => ["label", label.getD ""]
  | .promptMeta .. => []

/-- `getSearchableText`. -/
def getSearchableText (n : SessionNode) : String :=
  " ".intercalate ((n.label.filter truthy).toList ++ entryParts n.entry.body)

/-- `split(/\s+/).filter(Boolean)`. -/
def words (text : String) : List (List Char) := (text.toList.splitOnP isJsSpace).filter (· ≠ [])

section

variable (toLowerCase : String → String)

/-- Whether a node has all the words that are searched for. -/
def matchesSearch (searchQuery : String) (n : SessionNode) : Bool :=
  let nodeText := toLowerCase (getSearchableText n)
  (words (toLowerCase searchQuery)).all fun token => token <:+: nodeText.toList

/-- The test of `applyFilter`: the current leaf is shown even if it only has tool calls. -/
def passes (leafId : Option String) (mode : FilterMode) (searchQuery : String) (n : SessionNode) : Bool :=
  !(onlyToolCalls n.entry && !isLeaf leafId n) && passesFilter mode n && matchesSearch toLowerCase searchQuery n

end

/-! ### The visible tree -/

/-- `TreeList`, without what is selected and what is passed on to the caller. -/
structure TreeList where
  flatNodes : List FlatNode
  filteredNodes : List FlatNode
  currentLeafId : Option String
  filterMode : FilterMode
  searchQuery : String
  foldedNodes : List String
  multipleRoots : Bool
  visibleParentMap : OrdMap String (Option String)
  visibleChildrenMap : OrdMap (Option String) (List String)

/-- A map from ids to the flat nodes. -/
def flatNodeMap (flatNodes : List FlatNode) : OrdMap String FlatNode :=
  flatNodes.foldl (fun map n => map.set n.node.id n) .empty

/-- `entryMap.get(id)?.node.entry.parentId ?? null`. -/
def parentIdIn (entryMap : OrdMap String FlatNode) (id : String) : Option String :=
  (entryMap.get? id).bind (·.node.entry.parentId)

/-- The loop of `findVisibleAncestor`, at most `n` ids of it; the outer `none` is one that has not ended
by then. -/
def nearestVisible (entryMap : OrdMap String FlatNode) (visibleIds : List String) :
    ℕ → Option String → Option (Option String)
  | _, none => some none
  | 0, some _ => none
  | n + 1, some currentId =>
    if currentId ∈ visibleIds then some (some currentId)
    else nearestVisible entryMap visibleIds n (parentIdIn entryMap currentId)

/-- `findVisibleAncestor`. -/
def findVisibleAncestor (entryMap : OrdMap String FlatNode) (visibleIds : List String) (nodeId : String) :
    Option (Option String) :=
  nearestVisible entryMap visibleIds (entryMap.size + 1) (parentIdIn entryMap nodeId)

/-- `visibleChildren.get(ancestorId)!.push(nodeId)`. -/
def pushChild (visibleChildren : OrdMap (Option String) (List String)) (link : String × Option String) :
    OrdMap (Option String) (List String) :=
  visibleChildren.set link.2 ((visibleChildren.get? link.2).getD [] ++ [link.1])

/-- Updates a flat node if the item is its own. -/
def redrawAs (n : FlatNode) (item : StackItem String) : FlatNode :=
  if item.node = n.node.id then
    ⟨n.node, item.indent, item.showConnector, item.isLast, item.gutters, item.isVirtualRootChild⟩
  else n

/-- What the loop that draws the list does to a flat node. -/
def redraw (items : List (StackItem String)) (n : FlatNode) : FlatNode := items.foldl redrawAs n

/-- The loop that draws the list. -/
def layoutVisible (multipleRoots : Bool) (filteredNodes : List FlatNode)
    (visibleChildren : OrdMap (Option String) (List String)) : Option (List (StackItem String)) :=
  let filteredNodeMap := flatNodeMap filteredNodes
  let expand item :=
    if filteredNodeMap.has item.node then
      childItems multipleRoots item ((visibleChildren.get? (some item.node)).getD [])
    else []
  Rose.walk expand filteredNodes.length (rootItems multipleRoots ((visibleChildren.get? none).getD []))

/-- `recalculateVisualStructure`. -/
def recalculateVisualStructure (list : TreeList) : Option TreeList :=
  if list.filteredNodes = [] then some list
  else do
    let visibleIds := list.filteredNodes.map (·.node.id)
    let entryMap := flatNodeMap list.flatNodes
    let links ← visibleIds.mapM fun id => (findVisibleAncestor entryMap visibleIds id).map (id, ·)
    let visibleParent := links.foldl (fun map link => map.set link.1 link.2) OrdMap.empty
    let visibleChildren := links.foldl pushChild (OrdMap.empty.set none [])
    let multipleRoots : Bool := 1 < ((visibleChildren.get? none).getD []).length
    let items ← layoutVisible multipleRoots list.filteredNodes visibleChildren
    some { list with
      flatNodes := list.flatNodes.map (redraw items)
      filteredNodes := list.filteredNodes.map (redraw items)
      multipleRoots := multipleRoots
      visibleParentMap := visibleParent
      visibleChildrenMap := visibleChildren }

/-- `foldedNodes.has(parentId) || skipSet.has(parentId)`, for a node with a parent. -/
def skipsNode (foldedNodes skip : List String) (n : SessionNode) : Bool :=
  n.entry.parentId.any fun parentId => parentId ∈ foldedNodes || parentId ∈ skip

/-- The loop that fills `skipSet`. -/
def skipLoop (foldedNodes : List String) (skip : List String) (nodes : List SessionNode) : List String :=
  nodes.foldl (fun skip n => if skipsNode foldedNodes skip n then n.id :: skip else skip) skip

/-- `skipSet`, the ids below folded nodes. -/
def skipSet (foldedNodes : List String) (nodes : List SessionNode) : List String := skipLoop foldedNodes [] nodes

/-- The nodes `applyFilter` leaves. -/
def filterNodes (toLowerCase : String → String) (list : TreeList) : List FlatNode :=
  let passing := list.flatNodes.filter fun n =>
    passes toLowerCase list.currentLeafId list.filterMode list.searchQuery n.node
  if list.foldedNodes = [] then passing
  else
    let skip := skipSet list.foldedNodes (list.flatNodes.map FlatNode.node)
    passing.filter fun n => n.node.id ∉ skip

/-- `applyFilter`. -/
def applyFilter (toLowerCase : String → String) (list : TreeList) : Option TreeList :=
  recalculateVisualStructure { list with filteredNodes := filterNodes toLowerCase list }

/-- The constructor: the whole tree as a list, and what the filter leaves of it. -/
def TreeList.new (toLowerCase : String → String) (tree : List SessionTreeNode) (currentLeafId : Option String)
    (initialFilterMode : FilterMode) : Option TreeList := do
  let multipleRoots : Bool := 1 < tree.length
  let flatNodes ← flattenTree multipleRoots currentLeafId tree
  applyFilter toLowerCase
    ⟨flatNodes, [], currentLeafId, initialFilterMode, "", [], multipleRoots, .empty, .empty⟩

end Trek
