import ShareImage.Database.View
import ShareImage.Framework.Machine

namespace ShareImage

open Framework

variable {Key Leaf : Type} [LinearOrder Key]

/-- What a write changes, as its answer is told of it. -/
def FWriteRecord.affectedTree : FWriteRecord Key Leaf → FImmutableTree Key Unit
  | .overwrite .. => FImmutableTree.empty.setValue () []
  | .merge _ _ changedChildren =>
    changedChildren.enumerateWrites.foldl (fun affectedTree x => affectedTree.setValue () x.1) .empty

/-- The view that `addEventRegistration:forNonExistingViewForQuery:` makes. -/
def FSyncPoint.addEventRegistration (writesCache : FWriteTreeRef Key Leaf)
    (serverCache : FCacheNode Key Leaf) : FViewCache Key Leaf :=
  match writesCache.calculateCompleteEventCache
      (if serverCache.isFullyInitialized then some serverCache.node else none) with
  | some eventCache => ⟨⟨eventCache,true⟩,serverCache⟩
  | none => ⟨⟨writesCache.calculateCompleteEventChildren serverCache.node,false⟩,serverCache⟩

/-- Other views stay out of the tree, and what they know of the server comes with the events. -/
structure FSyncTree (Key Leaf : Type) [LinearOrder Key] where
  pendingWriteTree : FWriteTree Key Leaf := {}
  view : FViewCache Key Leaf := {}

namespace FSyncTree

inductive Event (Key Leaf : Type) [LinearOrder Key] where
  | applyUserOverwrite (path : List Key) (newData : FNode Key Leaf) (writeId : Int) (visible : Bool)
  | applyUserMerge (path : List Key) (changedChildren : FCompoundWrite Key Leaf) (writeId : Int)
  | ackUserWrite (writeId : Int) (revert : Bool)
  | removeAllWrites
  | applyServerOverwrite (path : List Key) (newData : FNode Key Leaf)
  | applyServerMerge (path : List Key) (changedChildren : FCompoundWrite Key Leaf)
  | applyListenComplete (path : List Key)

/-- The pending writes afterwards, and the operation for the sync points. -/
def operation (t : FWriteTree Key Leaf) :
    Event Key Leaf → Option (FWriteTree Key Leaf × Option (FOperation Key Leaf))
  | .applyUserOverwrite path newData writeId visible =>
    (t.addOverwriteAtPath path newData writeId visible).map fun u =>
      (u,if visible then some (.overwrite true path newData) else none)
  | .applyUserMerge path changedChildren writeId =>
    (t.addMergeAtPath path changedChildren writeId).map fun u =>
      (u,some (.merge true path changedChildren))
  | .ackUserWrite writeId revert =>
    (t.writeForId writeId).bind fun write => (t.removeWriteId writeId).map fun x =>
      (x.2,if x.1 then some (.ackUserWrite write.path write.affectedTree revert) else none)
  | .removeAllWrites =>
    some (t.removeAllWrites,if t.allWrites.isEmpty then none
      else some (.ackUserWrite [] (FImmutableTree.empty.setValue () []) true))
  | .applyServerOverwrite path newData => some (t,some (.overwrite false path newData))
  | .applyServerMerge path changedChildren => some (t,some (.merge false path changedChildren))
  | .applyListenComplete path => some (t,some (.listenComplete path))

/-- An event, with what other views have of the server's data at the place of the view. -/
abbrev Input (Key Leaf : Type) [LinearOrder Key] := Event Key Leaf × Option (FNode Key Leaf)

/-- The writes alone, which do not depend on what the server tells. -/
def writes : Machine (FWriteTree Key Leaf) (Input Key Leaf) where
  step t e := (operation t e.1).map Prod.fst

section View

variable [DecidableEq Leaf] (viewPath : List Key)

/-- `applyOperationToSyncPoints:`, as far as it goes for the view. -/
def applyOperationToSyncPoints (t : FWriteTree Key Leaf) (v : FViewCache Key Leaf)
    (o : FOperation Key Leaf) (optCompleteServerCache : Option (FNode Key Leaf)) :
    Option (FViewCache Key Leaf × List (FDataEvent Key Leaf)) :=
  match o.forView viewPath with
  | some o => v.applyOperation o ⟨viewPath,t⟩ optCompleteServerCache
  | none => some (v,[])

/-- The tree afterwards and the events to raise; `none` where an exception is thrown. -/
def apply (s : FSyncTree Key Leaf) (e : Input Key Leaf) :
    Option (FSyncTree Key Leaf × List (FDataEvent Key Leaf)) :=
  (operation s.pendingWriteTree e.1).bind fun x =>
    match x.2 with
    | some o =>
      (applyOperationToSyncPoints viewPath x.1 s.view o e.2).map fun y => (⟨x.1,y.1⟩,y.2)
    | none => some (⟨x.1,s.view⟩,[])

def machine : Machine (FSyncTree Key Leaf) (Input Key Leaf) where
  step s e := (apply viewPath s e).map Prod.fst

def events (s : FSyncTree Key Leaf) (e : Input Key Leaf) : List (FDataEvent Key Leaf) :=
  ((apply viewPath s e).map Prod.snd).getD []

theorem applyOperationToSyncPoints_knows (t : FWriteTree Key Leaf) (v : FViewCache Key Leaf)
    (o : FOperation Key Leaf) (optCompleteServerCache : Option (FNode Key Leaf))
    (l : Listener Key Leaf) (h : l.Knows v) :
    ∃w events,applyOperationToSyncPoints viewPath t v o optCompleteServerCache=some (w,events) ∧
      (events.foldl Listener.receive l).Knows w := by
  unfold applyOperationToSyncPoints
  cases o.forView viewPath with
  | none => exact ⟨v,[],rfl,h⟩
  | some o => exact v.applyOperation_knows o ⟨viewPath,t⟩ optCompleteServerCache l h

/-- The view is there for every step of the writes, and tells of it. -/
theorem step_knows (s : FSyncTree Key Leaf) (e : Input Key Leaf) (u : FWriteTree Key Leaf)
    (hu : writes.step s.pendingWriteTree e=some u) (l : Listener Key Leaf) (h : l.Knows s.view) :
    ∃v,(machine viewPath).step s e=some ⟨u,v⟩ ∧
      ((events viewPath s e).foldl Listener.receive l).Knows v := by
  obtain ⟨⟨t,o⟩,hoperation,ht⟩ := Option.map_eq_some_iff.mp hu
  cases ht
  cases o with
  | none =>
    have happly : apply viewPath s e=some (⟨t,s.view⟩,[]) := by
      rw [apply,hoperation]
      rfl
    refine ⟨s.view,by simp [machine,happly],?_⟩
    rw [events,happly]
    exact h
  | some o =>
    obtain ⟨v,out,hout,hknows⟩ := applyOperationToSyncPoints_knows viewPath t s.view o e.2 l h
    have happly : apply viewPath s e=some (⟨t,v⟩,out) := by
      simp [apply,hoperation,hout]
    refine ⟨v,by simp [machine,happly],?_⟩
    rw [events,happly]
    exact hknows

theorem run_knows (es : List (Input Key Leaf)) (s : FSyncTree Key Leaf) (u : FWriteTree Key Leaf)
    (hu : writes.run s.pendingWriteTree es=some u) (l : Listener Key Leaf) (h : l.Knows s.view) :
    ∃v,(machine viewPath).run s es=some ⟨u,v⟩ ∧
      (((machine viewPath).log (events viewPath) s es).foldl Listener.receive l).Knows v := by
  induction es generalizing s l with
  | nil =>
    cases hu
    exact ⟨s.view,rfl,h⟩
  | cons e es ih =>
    obtain ⟨t,ht,hrun⟩ := writes.run_cons_split s.pendingWriteTree u e es hu
    obtain ⟨v,hstep,hknows⟩ := step_knows viewPath s e t ht l h
    obtain ⟨w,hw,hlog⟩ := ih ⟨t,v⟩ hrun _ hknows
    refine ⟨w,?_,?_⟩
    · rw [Machine.run_cons,hstep]
      exact hw
    · rw [Machine.log,hstep,List.foldl_append]
      exact hlog

/-- What the tree of writes takes, the view takes. -/
theorem run_total (es : List (Input Key Leaf)) (s : FSyncTree Key Leaf) (u : FWriteTree Key Leaf)
    (hu : writes.run s.pendingWriteTree es=some u) :
    ∃v,(machine viewPath).run s es=some ⟨u,v⟩ := by
  have hknows : (Listener.mk s.view.cachedEventSnap.node.children
      s.view.completeEventSnap).Knows s.view := ⟨rfl,fun _ hnode => hnode⟩
  obtain ⟨v,hv,_⟩ := run_knows viewPath es s u hu _ hknows
  exact ⟨v,hv⟩

end View

end FSyncTree

end ShareImage
