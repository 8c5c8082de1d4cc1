import ShareImage.Database.Change
import ShareImage.Database.EventCache

namespace ShareImage

variable {Key Leaf : Type} [LinearOrder Key]

structure FCacheNode (Key Leaf : Type) [LinearOrder Key] where
  node : FNode Key Leaf := .emptyNode
  isFullyInitialized : Bool := false

namespace FCacheNode

def isCompleteForChild (c : FCacheNode Key Leaf) (childKey : Key) : Bool :=
  c.isFullyInitialized || c.node.hasChild childKey

def isCompleteForPath (c : FCacheNode Key Leaf) (path : List Key) : Bool :=
  match path with
  | [] => c.isFullyInitialized
  | childKey::_ => c.isCompleteForChild childKey

end FCacheNode

/-- What the server is known to have at the place of a view, and what its listeners are told. -/
structure FViewCache (Key Leaf : Type) [LinearOrder Key] where
  cachedEventSnap : FCacheNode Key Leaf := {}
  cachedServerSnap : FCacheNode Key Leaf := {}

namespace FViewCache

def updateEventSnap (v : FViewCache Key Leaf) (eventSnap : FNode Key Leaf) (complete : Bool) :
    FViewCache Key Leaf := {v with cachedEventSnap := ⟨eventSnap,complete⟩}

def updateServerSnap (v : FViewCache Key Leaf) (serverSnap : FNode Key Leaf) (complete : Bool) :
    FViewCache Key Leaf := {v with cachedServerSnap := ⟨serverSnap,complete⟩}

def completeEventSnap (v : FViewCache Key Leaf) : Option (FNode Key Leaf) :=
  if v.cachedEventSnap.isFullyInitialized then some v.cachedEventSnap.node else none

def completeServerSnap (v : FViewCache Key Leaf) : Option (FNode Key Leaf) :=
  if v.cachedServerSnap.isFullyInitialized then some v.cachedServerSnap.node else none

end FViewCache

namespace FCompoundWrite

def completeChildren (w : FCompoundWrite Key Leaf) : List (Key × FNode Key Leaf) :=
  match w.writeTree.value with
  | some node => node.children
  | none => w.writeTree.children.keys.filterMap fun key =>
    (w.writeTree.child key).value.map fun x => (key,x)

def childCompoundWrites (w : FCompoundWrite Key Leaf) : List (Key × FCompoundWrite Key Leaf) :=
  w.writeTree.children.keys.map fun key => (key,⟨w.writeTree.child key,w.canonical.child key⟩)

def rootWrite (w : FCompoundWrite Key Leaf) : Option (FNode Key Leaf) := w.writeTree.value

end FCompoundWrite

/-- The writes below a path, with the methods of `FWriteTree` that it calls for it. -/
structure FWriteTreeRef (Key Leaf : Type) [LinearOrder Key] where
  path : List Key
  writeTree : FWriteTree Key Leaf

namespace FWriteTreeRef

def calculateCompleteEventCache (r : FWriteTreeRef Key Leaf)
    (completeServerCache : Option (FNode Key Leaf)) : Option (FNode Key Leaf) :=
  r.writeTree.calculateCompleteEventCacheAtPath r.path completeServerCache none false

def shadowingWriteAtPath (r : FWriteTreeRef Key Leaf) (path : List Key) : Option (FNode Key Leaf) :=
  r.writeTree.visibleWrites.completeNodeAtPath (r.path++path)

def calculateCompleteEventChildren (r : FWriteTreeRef Key Leaf)
    (completeServerChildren : FNode Key Leaf) : FNode Key Leaf :=
  match r.writeTree.visibleWrites.completeNodeAtPath r.path with
  | some topLevelSet =>
    if topLevelSet.isLeafNode then .emptyNode
    else topLevelSet.children.foldl (fun children x => children.updateImmediateChild x.1 x.2) .emptyNode
  | none =>
    let merge := r.writeTree.visibleWrites.childCompoundWriteAtPath r.path
    let completeChildren := completeServerChildren.children.foldl (fun children x =>
      children.updateImmediateChild x.1 ((merge.childCompoundWriteAtPath [x.1]).applyToNode x.2))
      .emptyNode
    merge.completeChildren.foldl (fun children x => children.updateImmediateChild x.1 x.2)
      completeChildren

/-- `nil` where a write lies over the whole path. -/
def calculateEventCacheAfterServerOverwrite (r : FWriteTreeRef Key Leaf) (childPath : List Key)
    (existingServerSnap : FNode Key Leaf) : Option (FNode Key Leaf) :=
  if r.writeTree.visibleWrites.hasCompleteWriteAtPath (r.path++childPath) then none
  else
    let childMerge := r.writeTree.visibleWrites.childCompoundWriteAtPath (r.path++childPath)
    if childMerge.isEmpty then some (existingServerSnap.getChild childPath)
    else some (childMerge.applyToNode (existingServerSnap.getChild childPath))

def calculateCompleteChild (r : FWriteTreeRef Key Leaf) (childKey : Key)
    (existingServerCache : FCacheNode Key Leaf) : Option (FNode Key Leaf) :=
  match r.writeTree.visibleWrites.completeNodeAtPath (r.path++[childKey]) with
  | some shadowingNode => some shadowingNode
  | none =>
    if existingServerCache.isCompleteForChild childKey then
      some ((r.writeTree.visibleWrites.childCompoundWriteAtPath (r.path++[childKey])).applyToNode
        (existingServerCache.node.getImmediateChild childKey))
    else none

end FWriteTreeRef

/-- What is to be done at a place of the data. The tree of an answer has the places of the write. -/
inductive FOperation (Key Leaf : Type) [LinearOrder Key] where
  | overwrite (fromUser : Bool) (path : List Key) (snap : FNode Key Leaf)
  | merge (fromUser : Bool) (path : List Key) (children : FCompoundWrite Key Leaf)
  | ackUserWrite (path : List Key) (affectedTree : FImmutableTree Key Unit) (revert : Bool)
  | listenComplete (path : List Key)

namespace FOperation

def path : FOperation Key Leaf → List Key
  | .overwrite _ path _ => path
  | .merge _ path _ => path
  | .ackUserWrite path _ _ => path
  | .listenComplete path => path

/-- What the operation is for a child, which is the first of its path if that is not empty. -/
def operationForChild (o : FOperation Key Leaf) (childKey : Key) : Option (FOperation Key Leaf) :=
  match o with
  | .overwrite fromUser [] snap => some (.overwrite fromUser [] (snap.getImmediateChild childKey))
  | .overwrite fromUser (_::path) snap => some (.overwrite fromUser path snap)
  | .merge fromUser [] children =>
    let childTree := children.childCompoundWriteAtPath [childKey]
    if childTree.isEmpty then none
    else
      match childTree.rootWrite with
      | some rootWrite => some (.overwrite fromUser [] rootWrite)
      | none => some (.merge fromUser [] childTree)
  | .merge fromUser (_::path) children => some (.merge fromUser path children)
  | .ackUserWrite [] affectedTree revert =>
    if affectedTree.value.isSome then some (.ackUserWrite [] affectedTree revert)
    else some (.ackUserWrite [] (affectedTree.subtreeAtPath [childKey]) revert)
  | .ackUserWrite (_::path) affectedTree revert => some (.ackUserWrite path affectedTree revert)
  | .listenComplete [] => some (.listenComplete [])
  | .listenComplete (_::path) => some (.listenComplete path)

/-- What reaches the view at a path, down the tree of sync points. -/
def forView (o : FOperation Key Leaf) (viewPath : List Key) : Option (FOperation Key Leaf) :=
  match viewPath with
  | [] => some o
  | childKey::rest =>
    match o.path with
    | [] => (o.operationForChild childKey).bind fun child => child.forView rest
    | front::_ =>
      if front=childKey then (o.operationForChild childKey).bind fun child => child.forView rest
      else none

end FOperation

namespace FViewProcessor

variable [DecidableEq Leaf] (writesCache : FWriteTreeRef Key Leaf)
  (optCompleteCache : Option (FNode Key Leaf))

/-- One after the other, with all that is tracked. -/
def each {α : Type} (f : FViewCache Key Leaf → α → FViewCache Key Leaf × List (Key × FChange Key Leaf))
    (xs : List α) (viewCache : FViewCache Key Leaf) :
    FViewCache Key Leaf × List (Key × FChange Key Leaf) :=
  xs.foldl (fun r x => ((f r.1 x).1,r.2++(f r.1 x).2)) (viewCache,[])

/-- `completeChild:` of the source that an overwrite is given. -/
def completeChild (viewCache : FViewCache Key Leaf) (childKey : Key) : Option (FNode Key Leaf) :=
  if viewCache.cachedEventSnap.isCompleteForChild childKey then
    some (viewCache.cachedEventSnap.node.getImmediateChild childKey)
  else
    match optCompleteCache with
    | some node => writesCache.calculateCompleteChild childKey ⟨node,true⟩
    | none => writesCache.calculateCompleteChild childKey viewCache.cachedServerSnap

/-- The child of the event cache after the server's data has changed at the path. -/
def newEventChild (viewCache : FViewCache Key Leaf) (childKey : Key) (childChangePath : List Key) :
    Option (FNode Key Leaf) :=
  let oldEventSnap := viewCache.cachedEventSnap
  if oldEventSnap.isCompleteForChild childKey then
    match writesCache.calculateEventCacheAfterServerOverwrite (childKey::childChangePath)
      viewCache.cachedServerSnap.node with
    | some eventChildUpdate =>
      some ((oldEventSnap.node.getImmediateChild childKey).updateChild childChangePath
        eventChildUpdate)
    | none => some (oldEventSnap.node.getImmediateChild childKey)
  else writesCache.calculateCompleteChild childKey viewCache.cachedServerSnap

def generateEventCacheAfterServerEvent (viewCache : FViewCache Key Leaf) (changePath : List Key) :
    FViewCache Key Leaf × List (Key × FChange Key Leaf) :=
  let oldEventSnap := viewCache.cachedEventSnap
  if (writesCache.shadowingWriteAtPath changePath).isSome then (viewCache,[])
  else
    match changePath with
    | [] =>
      -- the server's data is complete here
      let nodeWithLocalWrites :=
        (writesCache.calculateCompleteEventCache viewCache.completeServerSnap).getD .emptyNode
      let x := FIndexedFilter.updateFullNode oldEventSnap.node nodeWithLocalWrites
      (viewCache.updateEventSnap x.1 true,x.2)
    | childKey::childChangePath =>
      match newEventChild writesCache viewCache childKey childChangePath with
      | some newChild =>
        let x := FIndexedFilter.updateChildIn oldEventSnap.node childKey newChild childChangePath
        (viewCache.updateEventSnap x.1 oldEventSnap.isFullyInitialized,x.2)
      | none => (viewCache.updateEventSnap oldEventSnap.node oldEventSnap.isFullyInitialized,[])

def applyServerOverwriteTo (oldViewCache : FViewCache Key Leaf) (changePath : List Key)
    (changedSnap : FNode Key Leaf) : FViewCache Key Leaf × List (Key × FChange Key Leaf) :=
  let oldServerSnap := oldViewCache.cachedServerSnap
  match changePath with
  | [] =>
    let newServerCache := (FIndexedFilter.updateFullNode oldServerSnap.node changedSnap).1
    generateEventCacheAfterServerEvent writesCache (oldViewCache.updateServerSnap newServerCache true) []
  | childKey::childChangePath =>
    if !oldServerSnap.isCompleteForPath (childKey::childChangePath) && !childChangePath.isEmpty then
      (oldViewCache,[])
    else
      let newChildNode :=
        (oldServerSnap.node.getImmediateChild childKey).updateChild childChangePath changedSnap
      let newServerCache :=
        (FIndexedFilter.updateChildIn oldServerSnap.node childKey newChildNode childChangePath).1
      generateEventCacheAfterServerEvent writesCache
        (oldViewCache.updateServerSnap newServerCache oldServerSnap.isFullyInitialized)
        (childKey::childChangePath)

/-- The child of the event cache after an overwrite at the path. -/
def newUserChild (oldViewCache : FViewCache Key Leaf) (childKey : Key) (childChangePath : List Key)
    (changedSnap : FNode Key Leaf) : FNode Key Leaf :=
  if childChangePath.isEmpty then changedSnap
  else
    match completeChild writesCache optCompleteCache oldViewCache childKey with
    | some childNode => childNode.updateChild childChangePath changedSnap
    | none => .emptyNode

def applyUserOverwriteTo (oldViewCache : FViewCache Key Leaf) (changePath : List Key)
    (changedSnap : FNode Key Leaf) : FViewCache Key Leaf × List (Key × FChange Key Leaf) :=
  let oldEventSnap := oldViewCache.cachedEventSnap
  match changePath with
  | [] =>
    let x := FIndexedFilter.updateFullNode oldEventSnap.node changedSnap
    (oldViewCache.updateEventSnap x.1 true,x.2)
  | childKey::childChangePath =>
    let newChild :=
      newUserChild writesCache optCompleteCache oldViewCache childKey childChangePath changedSnap
    if oldEventSnap.node.getImmediateChild childKey=newChild then (oldViewCache,[])
    else
      let x := FIndexedFilter.updateChildIn oldEventSnap.node childKey newChild childChangePath
      (oldViewCache.updateEventSnap x.1 oldEventSnap.isFullyInitialized,x.2)

/-- `cache:hasChild:`, for the first key of a path. -/
def cacheHasChild (viewCache : FViewCache Key Leaf) (path : List Key) : Bool :=
  match path with
  | [] => viewCache.cachedEventSnap.isFullyInitialized
  | childKey::_ => viewCache.cachedEventSnap.isCompleteForChild childKey

/-- Children that are in view come first. -/
def applyUserMergeTo (viewCache : FViewCache Key Leaf) (path : List Key)
    (changedChildren : FCompoundWrite Key Leaf) :
    FViewCache Key Leaf × List (Key × FChange Key Leaf) :=
  let writes := changedChildren.enumerateWrites
  each (fun curViewCache x =>
      applyUserOverwriteTo writesCache optCompleteCache curViewCache (path++x.1) x.2)
    ((writes.filter fun x => cacheHasChild viewCache (path++x.1))++
      writes.filter fun x => !cacheHasChild viewCache (path++x.1)) viewCache

def applyServerMergeTo (viewCache : FViewCache Key Leaf) (path : List Key)
    (changedChildren : FCompoundWrite Key Leaf) :
    FViewCache Key Leaf × List (Key × FChange Key Leaf) :=
  let serverSnap := viewCache.cachedServerSnap
  if serverSnap.node.isEmpty && !serverSnap.isFullyInitialized then (viewCache,[])
  else
    let actualMerge :=
      if path.isEmpty then changedChildren
      else FCompoundWrite.emptyWrite.addCompoundWrite changedChildren path
    let isUnknownDeepMerge (x : Key × FCompoundWrite Key Leaf) : Bool :=
      !serverSnap.isCompleteForChild x.1 && x.2.rootWrite.isNone
    each (fun curViewCache (x : Key × FCompoundWrite Key Leaf) =>
        applyServerOverwriteTo writesCache curViewCache [x.1]
          (x.2.applyToNode (serverSnap.node.getImmediateChild x.1)))
      ((actualMerge.childCompoundWrites.filter fun x => serverSnap.node.hasChild x.1)++
        actualMerge.childCompoundWrites.filter fun x =>
          !serverSnap.node.hasChild x.1 && !isUnknownDeepMerge x) viewCache

/-- The server's data is applied once more where the write lay over it. -/
def ackUserWriteOn (viewCache : FViewCache Key Leaf) (ackPath : List Key)
    (affectedTree : FImmutableTree Key Unit) :
    FViewCache Key Leaf × List (Key × FChange Key Leaf) :=
  let serverCache := viewCache.cachedServerSnap
  if (writesCache.shadowingWriteAtPath ackPath).isSome then (viewCache,[])
  else if affectedTree.value.isSome then
    if (ackPath.isEmpty && serverCache.isFullyInitialized) || serverCache.isCompleteForPath ackPath then
      applyServerOverwriteTo writesCache viewCache ackPath (serverCache.node.getChild ackPath)
    else if ackPath.isEmpty then
      applyServerMergeTo writesCache viewCache ackPath (serverCache.node.children.foldl
        (fun changedChildren x => changedChildren.addWrite x.2 [x.1]) .emptyWrite)
    else (viewCache,[])
  else
    applyServerMergeTo writesCache viewCache ackPath (affectedTree.forEach.foldl
      (fun changedChildren x =>
        if serverCache.isCompleteForPath (ackPath++x.1) then
          changedChildren.addWrite (serverCache.node.getChild (ackPath++x.1)) x.1
        else changedChildren) .emptyWrite)

/-- The event cache after a write at the path has been taken back. -/
def revertedEventCache (viewCache : FViewCache Key Leaf) (path : List Key) :
    FNode Key Leaf × List (Key × FChange Key Leaf) :=
  let serverSnap := viewCache.cachedServerSnap
  let oldEventCache := viewCache.cachedEventSnap.node
  match path with
  | [] =>
    let newNode :=
      if serverSnap.isFullyInitialized then
        (writesCache.calculateCompleteEventCache viewCache.completeServerSnap).getD .emptyNode
      else writesCache.calculateCompleteEventChildren serverSnap.node
    FIndexedFilter.updateFullNode oldEventCache newNode
  | childKey::rest =>
    match writesCache.calculateCompleteChild childKey serverSnap with
    | some newChild => FIndexedFilter.updateChildIn oldEventCache childKey newChild rest
    | none =>
      if serverSnap.isCompleteForChild childKey then
        FIndexedFilter.updateChildIn oldEventCache childKey (oldEventCache.getImmediateChild childKey)
          rest
      else if oldEventCache.hasChild childKey then
        -- no complete child is available
        FIndexedFilter.updateChildIn oldEventCache childKey .emptyNode rest
      else (oldEventCache,[])

/-- With all writes to the children taken back, the event may be a leaf node again. -/
def revertedLeaf (viewCache : FViewCache Key Leaf) (path : List Key)
    (newEventCache : FNode Key Leaf) : FNode Key Leaf × List (Key × FChange Key Leaf) :=
  if !path.isEmpty && newEventCache.isEmpty && viewCache.cachedServerSnap.isFullyInitialized then
    match writesCache.calculateCompleteEventCache viewCache.completeServerSnap with
    | some complete =>
      if complete.isLeafNode then FIndexedFilter.updateFullNode newEventCache complete
      else (newEventCache,[])
    | none => (newEventCache,[])
  else (newEventCache,[])

def revertUserWriteOn (viewCache : FViewCache Key Leaf) (path : List Key) :
    FViewCache Key Leaf × List (Key × FChange Key Leaf) :=
  if (writesCache.shadowingWriteAtPath path).isSome then (viewCache,[])
  else
    let x := revertedEventCache writesCache viewCache path
    let y := revertedLeaf writesCache viewCache path x.1
    let complete := viewCache.cachedServerSnap.isFullyInitialized ||
      (writesCache.shadowingWriteAtPath []).isSome
    (viewCache.updateEventSnap y.1 complete,x.2++y.2)

def listenCompleteOldCache (viewCache : FViewCache Key Leaf) (path : List Key) :
    FViewCache Key Leaf × List (Key × FChange Key Leaf) :=
  let oldServerNode := viewCache.cachedServerSnap
  generateEventCacheAfterServerEvent writesCache
    (viewCache.updateServerSnap oldServerNode.node (oldServerNode.isFullyInitialized || path.isEmpty))
    path

/-- The new cache of the view, and what is tracked on the way. -/
def processOperation (oldViewCache : FViewCache Key Leaf) :
    FOperation Key Leaf → FViewCache Key Leaf × List (Key × FChange Key Leaf)
  | .overwrite true path snap =>
    applyUserOverwriteTo writesCache optCompleteCache oldViewCache path snap
  | .overwrite false path snap => applyServerOverwriteTo writesCache oldViewCache path snap
  | .merge true path children =>
    applyUserMergeTo writesCache optCompleteCache oldViewCache path children
  | .merge false path children => applyServerMergeTo writesCache oldViewCache path children
  | .ackUserWrite path affectedTree false => ackUserWriteOn writesCache oldViewCache path affectedTree
  | .ackUserWrite path _ true => revertUserWriteOn writesCache oldViewCache path
  | .listenComplete path => listenCompleteOldCache writesCache oldViewCache path

end FViewProcessor

end ShareImage
