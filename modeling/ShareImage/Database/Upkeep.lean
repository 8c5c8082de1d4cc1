import ShareImage.Database.Currency
import ShareImage.Database.Descent
import ShareImage.Database.SyncTree

namespace ShareImage

open Framework

variable {Key Leaf : Type} [LinearOrder Key]

namespace FWriteRecord

theorem affectedTree_value (w : FWriteRecord Key Leaf) (q : List Key) :
    w.affectedTree.valueAtPath q=some () ↔ ∃x∈w.pieces,x.1=w.path++q := by
  have hfold (xs : List (List Key × FNode Key Leaf)) (tree : FImmutableTree Key Unit) :
      (xs.foldl (fun affectedTree x => affectedTree.setValue () x.1) tree).valueAtPath q=some () ↔
        tree.valueAtPath q=some () ∨ ∃x∈xs,x.1=q := by
    induction xs generalizing tree with
    | nil => simp
    | cons x xs ih =>
      rw [List.foldl_cons,ih,FImmutableTree.valueAtPath_setValue]
      by_cases hq : q=x.1
      · simp [hq]
      · simp [hq,Ne.symm hq]
  cases w with
  | overwrite writeId path newData visible =>
    simp [affectedTree,pieces,FWriteRecord.path,FImmutableTree.valueAtPath_setValue,eq_comm]
  | merge writeId path changedChildren =>
    simp [affectedTree,pieces,FWriteRecord.path,hfold]

/-- A write counts in the places that its answer is told of alone. -/
theorem agreesOff_pieces (w : FWriteRecord Key Leaf) {branches : Set (List Key)}
    (hw : ∀x∈w.pieces,x.2.Fits branches x.1) {n : FNode Key Leaf} (hn : n.Shaped branches []) :
    (n.updateAll w.pieces).AgreesOff (FViewProcessor.affected w.path w.affectedTree) n := by
  refine (FNode.agreesOff_updateAll _ _ w.pieces ?_ ?_).symm
  · intro x hx
    obtain ⟨q,hq⟩ := w.path_le_pieces x hx
    exact ⟨x.1,⟨q,(w.affectedTree_value q).mpr ⟨x,hx,hq.symm⟩,hq⟩,List.prefix_refl x.1⟩
  · rintro _ ⟨q,hq,rfl⟩
    obtain ⟨x,hx,hxq⟩ := (w.affectedTree_value q).mp hq
    rw [←hxq]
    exact hn.isOpen (hw x hx).1

end FWriteRecord

namespace FWriteTree

theorem replay_eq (t : FWriteTree Key Leaf) (n : FNode Key Leaf) :
    t.replay n=n.updateAll (t.allWrites.flatMap FWriteRecord.pieces) := rfl

/-- A write over a path is one of those that wait. -/
theorem Layered.piece_of_complete {t : FWriteTree Key Leaf} (h : t.Layered) (p : List Key)
    (x : FNode Key Leaf) (hx : t.visibleWrites.completeNodeAtPath p=some x) :
    ∃w∈t.allWrites.flatMap FWriteRecord.pieces,w.1<+:p := by
  obtain ⟨⟨r,y⟩,hfind,_⟩ := Option.map_eq_some_iff.mp hx
  obtain ⟨hr,hread,_⟩ := FCompoundWrite.covers_of_findRootMost _ p r y hfind
  rw [h,overlay_layerTree] at hread
  obtain ⟨w,hw,rfl⟩ := Overlay.read_layer _ r y hread
  exact ⟨w,hw,hr⟩

/-- A write whose answer changes nothing is covered by a later one. -/
theorem removeWriteId_unseen (t u : FWriteTree Key Leaf) (w : FWriteRecord Key Leaf)
    (later : List (FWriteRecord Key Leaf)) (hall : t.allWrites=w::later)
    (hvisible : w.visible=true) (h : t.removeWriteId w.writeId=some (false,u)) :
    ∃r∈later,r.containsPath w.path=true := by
  have hindex : t.allWrites.findIdx? (fun record => record.writeId=w.writeId)=some 0 := by
    simp [hall,List.findIdx?_cons]
  have hget : t.allWrites[0]?=some w := by simp [hall]
  have hrest : t.allWrites.eraseIdx 0=later := by simp [hall]
  unfold removeWriteId at h
  rw [hindex] at h
  simp only [hget,hrest,hvisible,if_true] at h
  split at h
  · rename_i b' hscan
    exact scan_shadowed later w 0 _ false b' hscan
  · cases h
  · cases h

end FWriteTree

namespace FViewCache

/-- The view after an operation is that of the processor. -/
theorem applyOperation_view [DecidableEq Leaf] (v w : FViewCache Key Leaf) (o : FOperation Key Leaf)
    (writesCache : FWriteTreeRef Key Leaf) (optCompleteServerCache : Option (FNode Key Leaf))
    (events : List (FDataEvent Key Leaf))
    (h : v.applyOperation o writesCache optCompleteServerCache=some (w,events)) :
    w=(FViewProcessor.processOperation writesCache optCompleteServerCache v o).1 := by
  unfold applyOperation at h
  obtain ⟨changeMap,_,h⟩ := Option.bind_eq_some_iff.mp h
  obtain ⟨out,_,h⟩ := Option.bind_eq_some_iff.mp h
  cases h
  rfl

end FViewCache

namespace FSyncTree

variable {branches : Set (List Key)} {viewPath : List Key}

section Step

variable [DecidableEq Leaf]

/-- What the view is given to do of an operation. -/
def viewAfter (viewPath : List Key) (u : FWriteTree Key Leaf)
    (optCompleteServerCache : Option (FNode Key Leaf)) (v : FViewCache Key Leaf) :
    Option (FOperation Key Leaf) → FViewCache Key Leaf
  | some o => (FViewProcessor.processOperation ⟨viewPath,u⟩ optCompleteServerCache v o).1
  | none => v

theorem step_view (s s' : FSyncTree Key Leaf) (e : Input Key Leaf)
    (h : (machine viewPath).step s e=some s') :
    ∃u o,operation s.pendingWriteTree e.1=some (u,o) ∧ s'.pendingWriteTree=u ∧
      s'.view=viewAfter viewPath u e.2 s.view (o.bind fun o => o.forView viewPath) := by
  obtain ⟨⟨t,out⟩,happly,ht⟩ := Option.map_eq_some_iff.mp h
  cases ht
  obtain ⟨⟨u,o⟩,hoperation,hrest⟩ := Option.bind_eq_some_iff.mp happly
  refine ⟨u,o,hoperation,?_⟩
  cases o with
  | none =>
    cases hrest
    exact ⟨rfl,rfl⟩
  | some o =>
    obtain ⟨⟨w,out'⟩,hw,heq⟩ := Option.map_eq_some_iff.mp hrest
    cases heq
    refine ⟨rfl,?_⟩
    unfold applyOperationToSyncPoints at hw
    rw [Option.bind_some]
    cases hview : o.forView viewPath with
    | none =>
      rw [hview] at hw
      cases hw
      rfl
    | some o' =>
      rw [hview] at hw
      exact s.view.applyOperation_view w o' ⟨viewPath,u⟩ e.2 out' hw

end Step

/-- Writes that are visible, answers that are to the oldest write, when that can go, and data that
have no leaf where others have children. -/
def Sound (branches : Set (List Key)) (t : FWriteTree Key Leaf) (e : Input Key Leaf) : Prop :=
  match e.1 with
  | .applyUserOverwrite path newData _ visible => visible=true ∧ newData.Fits branches path
  | .applyUserMerge path changedChildren _ => changedChildren.Fits branches path
  | .ackUserWrite writeId _ =>
    match t.allWrites with
    | [] => True
    | w::later => writeId=w.writeId ∧ FWriteTree.Removable w later
  | .removeAllWrites => True
  | .applyServerOverwrite path newData => newData.Fits branches path
  | .applyServerMerge path changedChildren =>
    changedChildren.rootWrite=none ∧ changedChildren.Fits branches path
  | .applyListenComplete _ => True

/-- What the server tells, each with its path. -/
def reported : Event Key Leaf → List (List Key × FNode Key Leaf)
  | .applyServerOverwrite path newData => [(path,newData)]
  | .applyServerMerge path changedChildren =>
    changedChildren.enumerateWrites.map fun x => (path++x.1,x.2)
  | _ => []

/-- With what the server has everywhere, the view has what it has at the path, and is current. -/
structure Upkept (branches : Set (List Key)) (viewPath : List Key) (server : FNode Key Leaf)
    (s : FSyncTree Key Leaf) : Prop where
  within : FNode.Within branches viewPath
  shaped : server.Shaped branches []
  visible : s.pendingWriteTree.AllVisible
  ready : (FWriteTreeRef.mk viewPath s.pendingWriteTree).Ready branches
  current : FViewProcessor.Current branches ⟨viewPath,s.pendingWriteTree⟩ (server.getChild viewPath)
    ∅ s.view

variable {server : FNode Key Leaf} {s : FSyncTree Key Leaf}

/-- Nothing but what is at the path counts for what is shown there. -/
theorem shown_getChild (viewPath : List Key) (t : FWriteTree Key Leaf) (server : FNode Key Leaf) :
    (FWriteTreeRef.mk viewPath t).shown (server.getChild viewPath)=
      (t.replay server).getChild viewPath :=
  FNode.getChild_updateAll_covered _ _ _ viewPath (.inr (FNode.getChild_updateChild ..))

theorem Upkept.replay_shaped (h : Upkept branches viewPath server s) :
    (s.pendingWriteTree.replay server).Shaped branches [] := by
  apply h.shaped.updateAll
  intro w hw
  obtain ⟨record,hrecord,hwr⟩ := List.mem_flatMap.mp hw
  exact (h.ready.fits record hrecord w hwr).2

theorem Upkept.event (h : Upkept branches viewPath server s) :
    s.view.cachedEventSnap=⟨(s.pendingWriteTree.replay server).getChild viewPath,true⟩ := by
  rw [h.current.eq,shown_getChild]

theorem Upkept.of_eq (h : Upkept branches viewPath server s) (u : FWriteTree Key Leaf)
    (v : FViewCache Key Leaf) (hv : v.cachedServerSnap=s.view.cachedServerSnap)
    (hevent : v.cachedEventSnap=⟨(u.replay server).getChild viewPath,true⟩) :
    FViewProcessor.Current branches ⟨viewPath,u⟩ (server.getChild viewPath) ∅ v := by
  refine FViewProcessor.Current.of_eq (hv.trans h.current.server) h.current.shaped ?_
  rw [shown_getChild]
  exact hevent

/-- Where the same is to be shown, nothing is to be done. -/
theorem Upkept.keeps (h : Upkept branches viewPath server s) (u : FWriteTree Key Leaf)
    (hu : (s.pendingWriteTree.replay server).getChild viewPath=
      (u.replay server).getChild viewPath) :
    FViewProcessor.Current branches ⟨viewPath,u⟩ (server.getChild viewPath) ∅ s.view :=
  h.of_eq u s.view rfl (by rw [h.event,hu])

/-- A view that is made while writes wait, of what the server has at its path. -/
def opened (viewPath : List Key) (t : FWriteTree Key Leaf) (n : FNode Key Leaf) :
    FSyncTree Key Leaf :=
  ⟨t,FSyncPoint.addEventRegistration ⟨viewPath,t⟩ ⟨n,true⟩⟩

theorem opened_upkept (hpath : FNode.Within branches viewPath)
    (hserver : server.Shaped branches []) (t : FWriteTree Key Leaf) (hvisible : t.AllVisible)
    (hready : (FWriteTreeRef.mk viewPath t).Ready branches) :
    Upkept branches viewPath server (opened viewPath t (server.getChild viewPath)) := by
  have hshaped : (server.getChild viewPath).Shaped branches viewPath := hserver.getChild
  have hopened : (opened viewPath t (server.getChild viewPath)).view=
      ⟨⟨(FWriteTreeRef.mk viewPath t).shown (server.getChild viewPath),true⟩,
        ⟨server.getChild viewPath,true⟩⟩ := by
    simp [opened,FSyncPoint.addEventRegistration,hready.eventCache hshaped]
  refine ⟨hpath,hserver,hvisible,hready,FViewProcessor.Current.of_eq ?_ hshaped ?_⟩
  · rw [hopened]
  · rw [hopened]
    rfl

variable [DecidableEq Leaf]

/-- A write of the user goes into the view as it goes into the tree. -/
theorem Upkept.user (h : Upkept branches viewPath server s) (u : FWriteTree Key Leaf)
    (record : FWriteRecord Key Leaf)
    (hall : u.allWrites=s.pendingWriteTree.allWrites++[record]) (o : FOperation Key Leaf)
    (ho : o.Writes true) (hupdates : o.updates=record.pieces) (hfits : o.Fits branches [])
    (optCompleteServerCache : Option (FNode Key Leaf)) :
    FViewProcessor.Current branches ⟨viewPath,u⟩ (server.getChild viewPath) ∅
      (viewAfter viewPath u optCompleteServerCache s.view (o.forView viewPath)) := by
  have hdoes := FOperation.forView_does viewPath o ho [] hfits (by simpa using h.within) _
    h.replay_shaped
  have hreplay : u.replay server=(s.pendingWriteTree.replay server).updateAll o.updates := by
    rw [FWriteTree.replay_eq,FWriteTree.replay_eq,hall,List.flatMap_append,FNode.updateAll_append,
      hupdates,List.flatMap_singleton]
  rw [←hreplay] at hdoes
  cases hview : o.forView viewPath with
  | none =>
    rw [hview] at hdoes
    exact h.keeps u hdoes.symm
  | some o' =>
    rw [hview] at hdoes
    obtain ⟨hwrites,_,hsame⟩ := hdoes
    have hnode : s.view.cachedEventSnap.node=
        (s.pendingWriteTree.replay server).getChild viewPath := by rw [h.event]
    have hafter : viewAfter viewPath u optCompleteServerCache s.view (some o')=
        s.view.updateEventSnap (s.view.cachedEventSnap.node.updateAll o'.updates) true := by
      cases hwrites with
      | overwrite path snap =>
        exact FViewProcessor.applyUserOverwriteTo_full _ _ s.view h.current.full path snap
      | merge path children =>
        exact FViewProcessor.applyUserMergeTo_full _ _ s.view h.current.full path children
    rw [hafter,hnode,←hsame]
    exact h.of_eq u _ rfl rfl

/-- What the server tells goes into the view as it goes into the server's data. -/
theorem Upkept.told (h : Upkept branches viewPath server s) (o : FOperation Key Leaf)
    (ho : o.Writes false) (hfits : o.Fits branches [])
    (optCompleteServerCache : Option (FNode Key Leaf)) :
    Upkept branches viewPath (server.updateAll o.updates) ⟨s.pendingWriteTree,
      viewAfter viewPath s.pendingWriteTree optCompleteServerCache s.view (o.forView viewPath)⟩ := by
  have hdoes := FOperation.forView_does viewPath o ho [] hfits (by simpa using h.within) _ h.shaped
  refine ⟨h.within,h.shaped.updateAll _ fun x hx => (hfits x hx).2,h.visible,h.ready,?_⟩
  cases hview : o.forView viewPath with
  | none =>
    rw [hview] at hdoes
    rw [show (server.updateAll o.updates).getChild viewPath=_ from hdoes]
    exact h.current
  | some o' =>
    rw [hview] at hdoes
    obtain ⟨hwrites,hfits',hsame⟩ := hdoes
    rw [hsame]
    cases hwrites with
    | overwrite path snap =>
      have hsnap : snap.Fits branches (viewPath++path) :=
        hfits' (path,snap) (List.mem_singleton_self _)
      exact (h.current.serverOverwrite h.ready path snap hsnap).done fun p hp => hp.1.elim
    | merge path children hroot =>
      have hchildren : children.Fits branches (viewPath++path) := by
        refine FCompoundWrite.holds_iff.mpr ?_
        intro x hx
        simpa using hfits' (path++x.1,x.2) (List.mem_map_of_mem hx)
      exact h.current.serverMerge h.ready path children hchildren (hroot rfl)

/-- Where writes have gone, the view is mended in all of their places. -/
theorem Upkept.answered (h : Upkept branches viewPath server s) (u : FWriteTree Key Leaf)
    (hready : (FWriteTreeRef.mk viewPath u).Ready branches) (c : List Key)
    (affectedTree : FImmutableTree Key Unit) (revert : Bool)
    (hoff : (s.pendingWriteTree.replay server).AgreesOff
      (FViewProcessor.affected c affectedTree) (u.replay server))
    (hcovered : ∀q,(∃w∈u.allWrites.flatMap FWriteRecord.pieces,w.1<+:q) →
      (s.pendingWriteTree.replay server).getChild q=(u.replay server).getChild q)
    (optCompleteServerCache : Option (FNode Key Leaf)) :
    FViewProcessor.Current branches ⟨viewPath,u⟩ (server.getChild viewPath) ∅
      (viewAfter viewPath u optCompleteServerCache s.view
        ((FOperation.ackUserWrite c affectedTree revert).forView viewPath)) := by
  have hmends := FOperation.forView_ack viewPath c affectedTree revert _ _ hoff
  have hnode : s.view.cachedEventSnap.node=
      (s.pendingWriteTree.replay server).getChild viewPath := by rw [h.event]
  generalize (FOperation.ackUserWrite c affectedTree revert :
    FOperation Key Leaf).forView viewPath=o at hmends ⊢
  cases o with
  | none => exact h.keeps u hmends
  | some o =>
    obtain ⟨d,tree,rfl,hagrees⟩ := hmends
    have hcurrent : FViewProcessor.Current branches ⟨viewPath,u⟩ (server.getChild viewPath)
        (FViewProcessor.affected d tree) s.view := by
      refine ⟨h.current.server,h.current.shaped,h.current.full,?_,?_⟩
      · rw [hnode,shown_getChild]
        exact hagrees
      · intro q hq
        obtain ⟨x,hx⟩ := Option.isSome_iff_exists.mp hq
        rw [hnode,shown_getChild,←FNode.getChild_append,←FNode.getChild_append]
        exact hcovered (viewPath++q) (hready.layered.piece_of_complete _ x hx)
    cases revert with
    | false => exact hcurrent.ack d tree hready
    | true => exact hcurrent.revert hready d (FViewProcessor.affected_below d tree)

theorem Upkept.step_user (h : Upkept branches viewPath server s) (u : FWriteTree Key Leaf)
    (record : FWriteRecord Key Leaf) (hvisible : record.visible=true)
    (hall : u.allWrites=s.pendingWriteTree.allWrites++[record])
    (hwrites : u.visibleWrites=FWriteTree.layerRecord [] s.pendingWriteTree.visibleWrites record)
    (o : FOperation Key Leaf) (ho : o.Writes true) (hupdates : o.updates=record.pieces)
    (hfits : o.Fits branches []) (optCompleteServerCache : Option (FNode Key Leaf)) :
    Upkept branches viewPath server
      ⟨u,viewAfter viewPath u optCompleteServerCache s.view (o.forView viewPath)⟩ := by
  refine ⟨h.within,h.shaped,?_,⟨h.ready.layered.add record hall hwrites,?_⟩,
    h.user u record hall o ho hupdates hfits optCompleteServerCache⟩
  · intro r hr
    rcases List.mem_append.mp (hall ▸ hr) with hr | hr
    · exact h.visible r hr
    · exact List.mem_singleton.mp hr ▸ hvisible
  · intro r hr x hx
    rcases List.mem_append.mp (hall ▸ hr) with hr | hr
    · exact h.ready.fits r hr x hx
    · rw [List.mem_singleton.mp hr,←hupdates] at hx
      exact hfits x hx

/-- The oldest write goes, and the others stay as they are. -/
theorem Upkept.step_ack (h : Upkept branches viewPath server s) (w : FWriteRecord Key Leaf)
    (later : List (FWriteRecord Key Leaf)) (hall : s.pendingWriteTree.allWrites=w::later)
    (hremovable : FWriteTree.Removable w later) (b revert : Bool) (u : FWriteTree Key Leaf)
    (hu : s.pendingWriteTree.removeWriteId w.writeId=some (b,u))
    (optCompleteServerCache : Option (FNode Key Leaf)) :
    Upkept branches viewPath server ⟨u,viewAfter viewPath u optCompleteServerCache s.view
      ((if b then some (FOperation.ackUserWrite w.path w.affectedTree revert) else none).bind
        fun o => o.forView viewPath)⟩ := by
  have hw : w.visible=true := h.visible w (by simp [hall])
  have hrest := (FWriteTree.removeWriteId_oldest s.pendingWriteTree u w later b hall hw hu).1
  have hlayered : u.Layered := (FWriteTree.layered_remove_iff s.pendingWriteTree u w later b
    h.visible h.ready.layered hall hu).mpr hremovable
  have hwaited : ∀r∈u.allWrites,r∈s.pendingWriteTree.allWrites := by
    intro r hr
    rw [hall]
    exact List.mem_cons_of_mem w (hrest ▸ hr)
  have hvisible : u.AllVisible := fun r hr => h.visible r (hwaited r hr)
  have hready : (FWriteTreeRef.mk viewPath u).Ready branches :=
    ⟨hlayered,fun r hr => h.ready.fits r (hwaited r hr)⟩
  have hbefore : s.pendingWriteTree.replay server=
      (server.updateAll w.pieces).updateAll (later.flatMap FWriteRecord.pieces) := by
    rw [FWriteTree.replay_eq,hall,List.flatMap_cons,FNode.updateAll_append]
  have hafter : u.replay server=
      server.updateAll (later.flatMap FWriteRecord.pieces) := by
    rw [FWriteTree.replay_eq,hrest]
  have hoff : (s.pendingWriteTree.replay server).AgreesOff
      (FViewProcessor.affected w.path w.affectedTree) (u.replay server) := by
    rw [hbefore,hafter]
    exact (w.agreesOff_pieces (h.ready.fits w (by simp [hall])) h.shaped).updateAll _
  have hcovered (q : List Key)
      (hq : ∃x∈u.allWrites.flatMap FWriteRecord.pieces,x.1<+:q) :
      (s.pendingWriteTree.replay server).getChild q=
        (u.replay server).getChild q := by
    rw [hbefore,hafter]
    exact FNode.getChild_updateAll_covered _ _ _ q (.inl (hrest ▸ hq))
  refine ⟨h.within,h.shaped,hvisible,hready,?_⟩
  cases b with
  | true =>
    exact h.answered u hready w.path w.affectedTree revert hoff hcovered optCompleteServerCache
  | false =>
    -- a later write covers all of its places
    obtain ⟨r,hr,hcontains⟩ :=
      FWriteTree.removeWriteId_unseen s.pendingWriteTree u w later hall hw hu
    obtain ⟨y,hy,hyw⟩ := (r.containsPath_iff w.path).mp hcontains
    have hsame := hcovered w.path ⟨y,List.mem_flatMap.mpr ⟨r,hrest ▸ hr,hy⟩,hyw⟩
    have hmend := hoff.mend w.path
    rw [←hsame,FNode.updateChild_getChild] at hmend
    have heq := (hmend.mono fun p hp => absurd (FViewProcessor.affected_below _ _ p hp.1) hp.2 :
      FNode.AgreesOff ∅ _ _).eq
    apply h.keeps u
    rw [heq]

theorem Upkept.step_removeAll (h : Upkept branches viewPath server s)
    (optCompleteServerCache : Option (FNode Key Leaf)) :
    Upkept branches viewPath server ⟨s.pendingWriteTree.removeAllWrites,
      viewAfter viewPath s.pendingWriteTree.removeAllWrites optCompleteServerCache s.view
        ((if s.pendingWriteTree.allWrites.isEmpty then none
          else some (FOperation.ackUserWrite [] (FImmutableTree.empty.setValue () []) true)).bind
            fun o => o.forView viewPath)⟩ := by
  have hready : (FWriteTreeRef.mk viewPath s.pendingWriteTree.removeAllWrites).Ready branches :=
    ⟨rfl,fun r hr => absurd hr List.not_mem_nil⟩
  refine ⟨h.within,h.shaped,fun r hr => absurd hr List.not_mem_nil,hready,?_⟩
  by_cases hempty : s.pendingWriteTree.allWrites.isEmpty=true
  · rw [if_pos hempty]
    apply h.keeps
    rw [FWriteTree.replay_eq,List.isEmpty_iff.mp hempty]
    rfl
  · rw [if_neg hempty]
    refine h.answered _ hready [] _ true ?_ ?_ optCompleteServerCache
    · intro q hq
      exact absurd List.nil_prefix (hq [] ⟨[],rfl,rfl⟩)
    · rintro q ⟨w,hw,_⟩
      exact absurd hw List.not_mem_nil

/-- Every step that is sound keeps the view current, with what the server has told in it. -/
theorem Upkept.step (h : Upkept branches viewPath server s) (e : Input Key Leaf)
    (he : Sound branches s.pendingWriteTree e) (s' : FSyncTree Key Leaf)
    (hs : (machine viewPath).step s e=some s') :
    Upkept branches viewPath (server.updateAll (reported e.1)) s' := by
  obtain ⟨u,o,hoperation,rfl,hview⟩ := step_view s s' e hs
  have hs' : s'=⟨s'.pendingWriteTree,viewAfter viewPath s'.pendingWriteTree e.2 s.view
      (o.bind fun o => o.forView viewPath)⟩ := by
    rw [←hview]
  rw [hs']
  clear hs' hview hs
  generalize s'.pendingWriteTree=u at hoperation ⊢
  obtain ⟨event,opt⟩ := e
  cases event with
  | applyUserOverwrite path newData writeId visible =>
    obtain ⟨rfl,hfits⟩ := he
    obtain ⟨t,hadd,heq⟩ := Option.map_eq_some_iff.mp hoperation
    cases heq
    unfold FWriteTree.addOverwriteAtPath at hadd
    split at hadd
    · cases hadd
      refine h.step_user _ (.overwrite writeId path newData true) rfl rfl ?_ _
        (.overwrite path newData) rfl ?_ opt
      · simp [FWriteTree.layerRecord]
      · intro x hx
        obtain rfl := List.mem_singleton.mp hx
        exact hfits
    · contradiction
  | applyUserMerge path changedChildren writeId =>
    obtain ⟨t,hadd,heq⟩ := Option.map_eq_some_iff.mp hoperation
    cases heq
    unfold FWriteTree.addMergeAtPath at hadd
    split at hadd
    · cases hadd
      refine h.step_user _ (.merge writeId path changedChildren) rfl rfl ?_ _
        (.merge path changedChildren (by simp)) rfl ?_ opt
      · simp [FWriteTree.layerRecord]
      · intro x hx
        obtain ⟨y,hy,rfl⟩ := List.mem_map.mp hx
        exact FCompoundWrite.holds_iff.mp he y hy
    · contradiction
  | ackUserWrite writeId revert =>
    obtain ⟨w,hw,hremove⟩ := Option.bind_eq_some_iff.mp hoperation
    obtain ⟨⟨b,t⟩,hb,heq⟩ := Option.map_eq_some_iff.mp hremove
    cases heq
    cases hall : s.pendingWriteTree.allWrites with
    | nil => simp [FWriteTree.writeForId,hall] at hw
    | cons x later =>
      unfold Sound at he
      simp only [hall] at he
      obtain ⟨rfl,hremovable⟩ := he
      obtain rfl : x=w := by simpa [FWriteTree.writeForId,hall] using hw
      exact h.step_ack x later hall hremovable b revert _ hb opt
  | removeAllWrites =>
    cases hoperation
    exact h.step_removeAll opt
  | applyServerOverwrite path newData =>
    cases hoperation
    refine h.told _ (.overwrite path newData) ?_ opt
    intro x hx
    obtain rfl := List.mem_singleton.mp hx
    exact he
  | applyServerMerge path changedChildren =>
    cases hoperation
    refine h.told _ (.merge path changedChildren fun _ => he.1) ?_ opt
    intro x hx
    obtain ⟨y,hy,rfl⟩ := List.mem_map.mp hx
    exact FCompoundWrite.holds_iff.mp he.2 y hy
  | applyListenComplete path =>
    cases hoperation
    refine ⟨h.within,h.shaped,h.visible,h.ready,?_⟩
    rw [Option.bind_some]
    cases hview : (FOperation.listenComplete path : FOperation Key Leaf).forView viewPath with
    | none => exact h.current
    | some o =>
      obtain ⟨d,rfl⟩ := FOperation.forView_listenComplete viewPath path o hview
      exact h.current.listenComplete h.ready d

theorem run_writes (es : List (Input Key Leaf)) (s s' : FSyncTree Key Leaf)
    (h : (machine viewPath).run s es=some s') :
    writes.run s.pendingWriteTree es=some s'.pendingWriteTree := by
  induction es generalizing s with
  | nil =>
    cases h
    rfl
  | cons e es ih =>
    obtain ⟨u,hu,hrun⟩ := (machine viewPath).run_cons_split s s' e es h
    obtain ⟨t,o,hoperation,rfl,_⟩ := step_view s u e hu
    have hstep : writes.step s.pendingWriteTree e=some u.pendingWriteTree := by
      change (operation s.pendingWriteTree e.1).map Prod.fst=some u.pendingWriteTree
      rw [hoperation]
      rfl
    rw [Machine.run_cons,hstep]
    exact ih u hrun

theorem run_upkept (h : Upkept branches viewPath server s) (es : List (Input Key Leaf))
    (s' : FSyncTree Key Leaf) (hrun : (machine viewPath).run s es=some s')
    (hes : writes.Meets (Sound branches) s.pendingWriteTree es) :
    Upkept branches viewPath (server.updateAll (es.flatMap fun e => reported e.1)) s' := by
  refine (machine viewPath).run_history
    (fun es s' => writes.Meets (Sound branches) s.pendingWriteTree es →
      Upkept branches viewPath (server.updateAll (es.flatMap fun e => reported e.1)) s')
    s (fun _ => h) ?_ es s' hrun hes
  intro es u e t hu hupkept he hmeets
  obtain ⟨hes,hsound⟩ := writes.meets_concat (Sound branches) _ u.pendingWriteTree es e
    (run_writes es s u hu) hmeets
  have hstep := (hupkept hes).step e hsound t he
  rwa [←FNode.updateAll_append,←List.flatMap_singleton (fun e : Input Key Leaf => reported e.1) e,
    ←List.flatMap_append] at hstep

/-- Whatever order the user's writes, their answers and the reports of the server come in, and
whenever the view is made, it has at all times what the server has told so far, and shows what is at
its path after the pending writes are made over that, one by one. -/
theorem view_current (hpath : FNode.Within branches viewPath) (hserver : server.Shaped branches [])
    (earlier es : List (Input Key Leaf)) (t u : FWriteTree Key Leaf)
    (ht : writes.run {} earlier=some t) (hu : writes.run t es=some u)
    (hearlier : writes.Meets (Sound branches) {} earlier)
    (hes : writes.Meets (Sound branches) t es) :
    ∃v,(machine viewPath).run (opened viewPath t
        ((server.updateAll (earlier.flatMap fun e => reported e.1)).getChild viewPath)) es=
          some ⟨u,v⟩ ∧
      v.completeServerSnap=some
        ((server.updateAll ((earlier++es).flatMap fun e => reported e.1)).getChild viewPath) ∧
      v.completeEventSnap=some ((u.replay
        (server.updateAll ((earlier++es).flatMap fun e => reported e.1))).getChild viewPath) := by
  -- a view that is there from the start brings the tree to where this one is made
  have hstart : Upkept branches viewPath server (opened viewPath {} (server.getChild viewPath)) :=
    opened_upkept hpath hserver {} (fun r hr => absurd hr List.not_mem_nil)
      ⟨rfl,fun r hr => absurd hr List.not_mem_nil⟩
  obtain ⟨v,hrun⟩ := run_total viewPath earlier (opened viewPath {} (server.getChild viewPath)) t ht
  have hbefore := run_upkept hstart earlier _ hrun hearlier
  have hopened := opened_upkept hpath hbefore.shaped t hbefore.visible hbefore.ready
  obtain ⟨v,hrun⟩ := run_total viewPath es (opened viewPath t
    ((server.updateAll (earlier.flatMap fun e => reported e.1)).getChild viewPath)) u hu
  have hkept := run_upkept hopened es _ hrun hes
  rw [←FNode.updateAll_append,←List.flatMap_append] at hkept
  refine ⟨v,hrun,hkept.current.completeServerSnap,?_⟩
  have hevent : v.cachedEventSnap=_ := hkept.event
  rw [FViewCache.completeEventSnap,hevent]
  rfl

/-- A user is one leaf here. -/
def userBranches : Set (List String) := {p | p=[] ∨ p=["users"]}

theorem fits_users (x : FNode String String) (key : String) :
    x.Fits userBranches ["users",key] := by
  constructor
  · intro s hs hne
    obtain rfl | ⟨s,rfl,hrest⟩ := List.prefix_cons_iff.mp hs
    · exact .inl rfl
    obtain rfl | ⟨s,rfl,hlast⟩ := List.prefix_cons_iff.mp hrest
    · exact .inr rfl
    · rw [List.prefix_nil.mp hlast] at hne
      contradiction
  · intro q hq
    obtain hq | hq := hq <;> simp at hq

/-- What the server holds at first. -/
def pictured : FNode String String := FNode.emptyNode.updateChild ["users","a"] (.leaf "ann")

/-- Before the view is made, a user is written and the server tells of another. -/
def writtenAndTold : List (Input String String) :=
  [(.applyUserOverwrite ["users","b"] (.leaf "bob") 0 true,none),
    (.applyServerOverwrite ["users","c"] (.leaf "cid"),none)]

/-- The user is taken back, and a third is written. -/
def takenBackAndWritten : List (Input String String) :=
  [(.ackUserWrite 0 true,none),
    (.applyUserOverwrite ["users","d"] (.leaf "dan") 1 true,none)]

theorem view_current_takenBackAndWritten :
    ∃t u v,writes.run {} writtenAndTold=some t ∧ t.allWrites.length=1 ∧
      (machine ["users"]).run (opened ["users"] t ((pictured.updateChild ["users","c"]
        (.leaf "cid")).getChild ["users"])) takenBackAndWritten=some ⟨u,v⟩ ∧
      v.completeEventSnap=some (((FNode.emptyNode.updateChild ["a"] (.leaf "ann")).updateChild
        ["c"] (.leaf "cid")).updateChild ["d"] (.leaf "dan")) := by
  have hpath : FNode.Within userBranches ["users"] := by
    intro s hs hne
    obtain rfl | ⟨s,rfl,hrest⟩ := List.prefix_cons_iff.mp hs
    · exact .inl rfl
    · rw [List.prefix_nil.mp hrest] at hne
      contradiction
  have hserver : pictured.Shaped userBranches [] :=
    (FNode.shaped_emptyNode userBranches []).updateChild (fits_users (.leaf "ann") "a").2
  have hearlier : writes.Meets (Sound userBranches) {} writtenAndTold :=
    ⟨⟨rfl,fits_users ..⟩,fits_users ..,trivial⟩
  obtain ⟨v,hrun,_,hevent⟩ := view_current hpath hserver writtenAndTold takenBackAndWritten _ _ rfl
    rfl hearlier ⟨⟨rfl,by decide⟩,⟨rfl,fits_users ..⟩,trivial⟩
  exact ⟨_,_,v,rfl,rfl,hrun,hevent⟩

end FSyncTree

end ShareImage
