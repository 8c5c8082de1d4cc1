import ShareImage.Database.ViewEvents
import ShareImage.Database.EventGenerator

namespace ShareImage

variable {Key Leaf : Type} [LinearOrder Key]

namespace FViewCache

variable [DecidableEq Leaf]

/-- `maybeAddValueFromOldViewCache:newViewCache:changes:`, the value alone. -/
def valueChange (oldViewCache newViewCache : FViewCache Key Leaf)
    (changes : List (Key × FChange Key Leaf)) : Option (FNode Key Leaf) :=
  let eventSnap := newViewCache.cachedEventSnap
  if eventSnap.isFullyInitialized then
    let isLeafOrEmpty := eventSnap.node.isLeafNode || eventSnap.node.isEmpty
    if changes.length>0 || !oldViewCache.cachedEventSnap.isFullyInitialized ||
        (isLeafOrEmpty && some eventSnap.node≠oldViewCache.completeEventSnap) then
      some eventSnap.node
    else none
  else none

/-- `applyOperation:writesCache:serverCache:` of a view; `none` where it throws. -/
def applyOperation (viewCache : FViewCache Key Leaf) (operation : FOperation Key Leaf)
    (writesCache : FWriteTreeRef Key Leaf) (optCompleteServerCache : Option (FNode Key Leaf)) :
    Option (FViewCache Key Leaf × List (FDataEvent Key Leaf)) := do
  let (newViewCache,tracked) :=
    FViewProcessor.processOperation writesCache optCompleteServerCache viewCache operation
  let changeMap ← FChildChangeAccumulator.trackAll ∅ tracked
  let changes := changeMap.entries.map fun e => (e.1,e.2)
  let events ← FEventGenerator.generateEventsForChanges changes
    (valueChange viewCache newViewCache changes) newViewCache.cachedEventSnap.node
  return (newViewCache,events)

end FViewCache

namespace Listener

/-- It has the children of the view, and the value where that is known. -/
def Knows (l : Listener Key Leaf) (v : FViewCache Key Leaf) : Prop :=
  l.children=v.cachedEventSnap.node.children ∧
    ∀node,v.completeEventSnap=some node → l.value=some node

end Listener

namespace FViewCache

section Operation

variable [DecidableEq Leaf]

/-- The value that is sent is that of the view. -/
theorem valueChange_some (v w : FViewCache Key Leaf) (changes : List (Key × FChange Key Leaf))
    (x : FNode Key Leaf) (h : valueChange v w changes=some x) : w.completeEventSnap=some x := by
  unfold valueChange at h
  dsimp only at h
  split at h
  · rename_i hfull
    split at h
    · rw [completeEventSnap,if_pos hfull,h]
    · contradiction
  · contradiction

/-- Where none is sent the view has had it before. -/
theorem valueChange_none (v w : FViewCache Key Leaf) (node : FNode Key Leaf)
    (hnone : valueChange v w []=none) (hnode : w.completeEventSnap=some node)
    (h : ∀key,v.cachedEventSnap.node.getImmediateChild key=
      w.cachedEventSnap.node.getImmediateChild key) : v.completeEventSnap=some node := by
  unfold completeEventSnap at hnode
  split at hnode
  · rename_i hfull
    cases hnode
    unfold valueChange at hnone
    dsimp only at hnone
    rw [if_pos hfull] at hnone
    split at hnone
    · contradiction
    · rename_i hno
      have hold : v.cachedEventSnap.isFullyInitialized=true := by
        by_contra hold
        exact hno (by simp [hold])
      by_cases hleaf : (w.cachedEventSnap.node.isLeafNode || w.cachedEventSnap.node.isEmpty)=true
      · by_contra hdiff
        exact hno (by simp [hleaf,Ne.symm hdiff])
      · obtain ⟨hleaf,hempty⟩ := Bool.or_eq_false_iff.mp ((Bool.not_eq_true _).mp hleaf)
        have hchildren (key : Key) := (h key).symm
        have hvleaf := FNode.isLeafNode_congr _ _ hleaf hempty hchildren
        rw [completeEventSnap,if_pos hold,FNode.ext_children _ _ hvleaf hleaf h]
  · contradiction

/-- No operation on a view throws, and a listener that knows the view knows it afterwards. -/
theorem applyOperation_knows (v : FViewCache Key Leaf) (o : FOperation Key Leaf)
    (writesCache : FWriteTreeRef Key Leaf) (optCompleteServerCache : Option (FNode Key Leaf))
    (l : Listener Key Leaf) (h : l.Knows v) :
    ∃w events,v.applyOperation o writesCache optCompleteServerCache=some (w,events) ∧
      (events.foldl Listener.receive l).Knows w := by
  have htracks := FViewProcessor.processOperation_tracks writesCache optCompleteServerCache v o
  unfold applyOperation
  generalize FViewProcessor.processOperation writesCache optCompleteServerCache v o=r at htracks ⊢
  obtain ⟨w,tracked⟩ := r
  obtain ⟨changeMap,hmap,haccounts⟩ :=
    (FChildChangeAccumulator.accounts_empty v.cachedEventSnap.node.getImmediateChild).trackAll
      tracked htracks
  have hbetween := haccounts.between
  dsimp only
  rw [hmap,Option.bind_eq_bind,Option.bind_some]
  generalize changeMap.entries.map (fun e => (e.1,e.2))=changes at hbetween ⊢
  obtain ⟨events,hevents,hreceive⟩ := hbetween.receive (valueChange v w changes) l h.1
  refine ⟨w,events,by rw [hevents]; rfl,?_⟩
  rw [hreceive]
  refine ⟨rfl,?_⟩
  intro node hnode
  change (valueChange v w changes).or l.value=some node
  cases hvalue : valueChange v w changes with
  | some x => exact (valueChange_some v w changes x hvalue).symm.trans hnode
  | none =>
    cases changes with
    | nil =>
      have hrest (key : Key) := hbetween.rest key (by simp)
      exact h.2 node (valueChange_none v w node hvalue hnode hrest)
    | cons x changes =>
      unfold completeEventSnap at hnode
      unfold valueChange at hvalue
      split at hnode
      · rename_i hfull
        rw [if_pos hfull] at hvalue
        simp at hvalue
      · contradiction

end Operation

end FViewCache

end ShareImage
