import ShareImage.Database.ViewProcessor

namespace ShareImage

variable {Key Leaf : Type} [LinearOrder Key]

namespace FViewProcessor

/-- What is tracked leads from what the listeners know to what they are to know. -/
def Tracks (v : FViewCache Key Leaf) (r : FViewCache Key Leaf × List (Key × FChange Key Leaf)) :
    Prop :=
  FChange.Leads r.2 v.cachedEventSnap.node.getImmediateChild
    r.1.cachedEventSnap.node.getImmediateChild

theorem Tracks.refl (v : FViewCache Key Leaf) : Tracks v (v,[]) := rfl

theorem Tracks.each {α : Type}
    {f : FViewCache Key Leaf → α → FViewCache Key Leaf × List (Key × FChange Key Leaf)}
    (hf : ∀v x,Tracks v (f v x)) (xs : List α) (v : FViewCache Key Leaf) :
    Tracks v (each f xs v) := by
  have hfold (u : FViewCache Key Leaf) (changes : List (Key × FChange Key Leaf))
      (h : Tracks v (u,changes)) :
      Tracks v (xs.foldl (fun r x => ((f r.1 x).1,r.2++(f r.1 x).2)) (u,changes)) := by
    induction xs generalizing u changes with
    | nil => exact h
    | cons x xs ih => exact ih _ _ (h.append (hf u x))
  exact hfold v [] rfl

section Filter

variable [DecidableEq Leaf] (writesCache : FWriteTreeRef Key Leaf)
  (optCompleteCache : Option (FNode Key Leaf))

theorem tracks_full (v : FViewCache Key Leaf) (node : FNode Key Leaf) (complete : Bool) :
    Tracks v (v.updateEventSnap (FIndexedFilter.updateFullNode v.cachedEventSnap.node node).1 complete,
      (FIndexedFilter.updateFullNode v.cachedEventSnap.node node).2) :=
  FIndexedFilter.updateFullNode_leads v.cachedEventSnap.node node

theorem tracks_child (v : FViewCache Key Leaf) (childKey : Key) (node : FNode Key Leaf)
    (path : List Key) (complete : Bool) : Tracks v
      (v.updateEventSnap
        (FIndexedFilter.updateChildIn v.cachedEventSnap.node childKey node path).1 complete,
      (FIndexedFilter.updateChildIn v.cachedEventSnap.node childKey node path).2) :=
  FIndexedFilter.updateChildIn_leads v.cachedEventSnap.node childKey node path

theorem generateEventCacheAfterServerEvent_tracks (v : FViewCache Key Leaf) (path : List Key) :
    Tracks v (generateEventCacheAfterServerEvent writesCache v path) := by
  unfold generateEventCacheAfterServerEvent
  dsimp only
  split
  · exact Tracks.refl v
  · split
    · exact tracks_full v _ true
    · split
      · exact tracks_child v _ _ _ _
      · rfl

theorem applyServerOverwriteTo_tracks (v : FViewCache Key Leaf) (path : List Key)
    (snap : FNode Key Leaf) : Tracks v (applyServerOverwriteTo writesCache v path snap) := by
  unfold applyServerOverwriteTo
  dsimp only
  split
  · exact generateEventCacheAfterServerEvent_tracks writesCache (v.updateServerSnap _ true) []
  · split
    · exact Tracks.refl v
    · exact generateEventCacheAfterServerEvent_tracks writesCache (v.updateServerSnap _ _) _

theorem applyUserOverwriteTo_tracks (v : FViewCache Key Leaf) (path : List Key)
    (snap : FNode Key Leaf) :
    Tracks v (applyUserOverwriteTo writesCache optCompleteCache v path snap) := by
  unfold applyUserOverwriteTo
  dsimp only
  split
  · exact tracks_full v snap true
  · split
    · exact Tracks.refl v
    · exact tracks_child v _ _ _ _

theorem applyServerMergeTo_tracks (v : FViewCache Key Leaf) (path : List Key)
    (changedChildren : FCompoundWrite Key Leaf) :
    Tracks v (applyServerMergeTo writesCache v path changedChildren) := by
  unfold applyServerMergeTo
  dsimp only
  split
  · exact Tracks.refl v
  · exact Tracks.each (fun u x => applyServerOverwriteTo_tracks writesCache u _ _) _ v

theorem ackUserWriteOn_tracks (v : FViewCache Key Leaf) (path : List Key)
    (affectedTree : FImmutableTree Key Unit) :
    Tracks v (ackUserWriteOn writesCache v path affectedTree) := by
  unfold ackUserWriteOn
  dsimp only
  split
  · exact Tracks.refl v
  · split
    · split
      · exact applyServerOverwriteTo_tracks writesCache v path _
      · split
        · exact applyServerMergeTo_tracks writesCache v path _
        · exact Tracks.refl v
    · exact applyServerMergeTo_tracks writesCache v path _

theorem revertUserWriteOn_tracks (v : FViewCache Key Leaf) (path : List Key) :
    Tracks v (revertUserWriteOn writesCache v path) := by
  have hfull (node newNode : FNode Key Leaf) : FChange.Leads
      (FIndexedFilter.updateFullNode node newNode).2 node.getImmediateChild
      (FIndexedFilter.updateFullNode node newNode).1.getImmediateChild :=
    FIndexedFilter.updateFullNode_leads node newNode
  have hcache : FChange.Leads (revertedEventCache writesCache v path).2
      v.cachedEventSnap.node.getImmediateChild
      (revertedEventCache writesCache v path).1.getImmediateChild := by
    unfold revertedEventCache
    dsimp only
    split
    · exact hfull _ _
    · split
      · exact FIndexedFilter.updateChildIn_leads _ _ _ _
      · split
        · exact FIndexedFilter.updateChildIn_leads _ _ _ _
        · split
          · exact FIndexedFilter.updateChildIn_leads _ _ _ _
          · rfl
  have hleaf (node : FNode Key Leaf) : FChange.Leads (revertedLeaf writesCache v path node).2
      node.getImmediateChild (revertedLeaf writesCache v path node).1.getImmediateChild := by
    unfold revertedLeaf
    split
    · split
      · split
        · exact hfull _ _
        · rfl
      · rfl
    · rfl
  unfold revertUserWriteOn
  split
  · exact Tracks.refl v
  · exact hcache.append (hleaf _)

theorem processOperation_tracks (v : FViewCache Key Leaf) (o : FOperation Key Leaf) :
    Tracks v (processOperation writesCache optCompleteCache v o) := by
  cases o with
  | overwrite fromUser path snap =>
    cases fromUser with
    | true => exact applyUserOverwriteTo_tracks writesCache optCompleteCache v path snap
    | false => exact applyServerOverwriteTo_tracks writesCache v path snap
  | merge fromUser path children =>
    cases fromUser with
    | true =>
      exact Tracks.each
        (fun u x => applyUserOverwriteTo_tracks writesCache optCompleteCache u _ _) _ v
    | false => exact applyServerMergeTo_tracks writesCache v path children
  | ackUserWrite path affectedTree revert =>
    cases revert with
    | true => exact revertUserWriteOn_tracks writesCache v path
    | false => exact ackUserWriteOn_tracks writesCache v path affectedTree
  | listenComplete path =>
    exact generateEventCacheAfterServerEvent_tracks writesCache (v.updateServerSnap _ _) path

end Filter

end FViewProcessor

end ShareImage
